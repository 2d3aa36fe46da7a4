import Mathlib.Data.List.Induction
import Mathlib.Data.Set.Function
import TupleAssign.Diagnostic.Queue
/-!
# What a queue holds

What a queue holds follows from the diagnostics that were offered to it since it was last emptied,
and from nothing else. `QueueConfig.arrivals` says it offer by offer: whether an offer is kept, and
whether it is the one that leaves the closing diagnostic, depends on the offers before it.

A queue that has had some offers is described by `Queue.Reflects`. Each call keeps this description
up to date (`Queue.Reflects.add`, `Queue.reflects_calls`), and all answers can be read off it
(`Queue.answers_offered`).

The description is made in terms of any key for errors that the hashed keys of the queue agree with
(`Queue.Tells`). With the hashed keys themselves it holds for every hash; with the openings of the
messages it holds as long as the hash tells those that were offered apart.
-/

namespace TupleAssign

/-! ## Calls -/

/-- A call on a queue. -/
inductive Queue.Call where
  | add (d : Diagnostic)
  | addAll (ds : List Diagnostic)
  | flush
  | peek

/-- The queue after a call. -/
def Queue.after (hash : String → UInt64) (q : Queue) : Call → Queue
  | .add d => (q.add hash d).2
  | .addAll ds => (q.addAll hash ds).2
  | .flush => q.flush.2
  | .peek => q

/-- The queue after some calls, in order. -/
def Queue.afterAll (hash : String → UInt64) (q : Queue) (cs : List Call) : Queue :=
  cs.foldl (after hash) q

/-- What has been offered since the last flush, given what had been before the call. -/
def Queue.Call.offered (ds : List Diagnostic) : Call → List Diagnostic
  | .add d => ds ++ [d]
  | .addAll new => ds ++ new
  | .flush => []
  | .peek => ds

/-- The diagnostics offered since the last flush, or from the beginning. -/
def Queue.offered (cs : List Call) : List Diagnostic := cs.foldl Call.offered []

theorem Queue.afterAll_concat (hash : String → UInt64) (q : Queue) (cs : List Call) (c : Call) :
    q.afterAll hash (cs ++ [c]) = (q.afterAll hash cs).after hash c :=
  List.foldl_append

theorem Queue.offered_concat (cs : List Call) (c : Call) :
    offered (cs ++ [c]) = c.offered (offered cs) :=
  List.foldl_append

/-! ## Offers -/

/-- Each diagnostic with those that were offered before it. -/
def offers (ds : List Diagnostic) : List (List Diagnostic × Diagnostic) :=
  ds.zipIdx.map fun (d, i) => (ds.take i, d)

@[simp]
theorem offers_nil : offers [] = [] := rfl

@[simp]
theorem offers_concat (ds : List Diagnostic) (d : Diagnostic) :
    offers (ds ++ [d]) = offers ds ++ [(ds, d)] := by
  rw [offers, List.zipIdx_append, List.map_append]
  congr 1
  · refine List.map_congr_left fun p hp => ?_
    have hlt : p.2 < ds.length := by simpa using List.snd_lt_of_mem_zipIdx hp
    dsimp only
    rw [List.take_append_of_le_length (Nat.le_of_lt hlt)]
  · simp

theorem mem_offers (before : List Diagnostic) (d : Diagnostic) (after : List Diagnostic) :
    (before, d) ∈ offers (before ++ d :: after) := by
  refine List.mem_map.2 ⟨(d, before.length), ?_, by simp⟩
  rw [List.mem_zipIdx_iff_getElem?]
  simp

namespace QueueConfig

section Offering

variable {κ : Type} [DecidableEq κ] (config : QueueConfig) (key : Diagnostic → κ)

/-- An error counts if it is the first with its key. Where duplicates are not looked for, every
error counts. -/
def counts (before : List Diagnostic) (d : Diagnostic) : Bool :=
  d.isError && !(config.deduplicate && before.any fun e => e.isError && key e == key d)

/-- The errors that count. -/
def counting (ds : List Diagnostic) : List Diagnostic :=
  ((offers ds).filter fun o => config.counts key o.1 o.2).map (·.2)

/-- The errors that fit: of those that count, as many as the limit allows. -/
def admitted (ds : List Diagnostic) : List Diagnostic :=
  if config.errorLimit = 0 then config.counting key ds
  else (config.counting key ds).take config.errorLimit

/-- There is a limit, and it has been reached. -/
def isFull (before : List Diagnostic) : Bool :=
  0 < config.errorLimit && config.errorLimit ≤ (config.counting key before).length

/-- All but errors are kept; an error is kept if it counts and the limit has not been reached. -/
def keeps (before : List Diagnostic) (d : Diagnostic) : Bool :=
  !d.isError || (config.counts key before d && !config.isFull key before)

/-- An error, of whatever key, that comes after the limit was reached. -/
def exceeds (before : List Diagnostic) (d : Diagnostic) : Bool := d.isError && config.isFull key before

/-- No error has come after the limit was reached. -/
def Within (ds : List Diagnostic) : Prop := ∀ o ∈ offers ds, config.exceeds key o.1 o.2 = false

/-- The first error that comes after the limit was reached. -/
def closes (before : List Diagnostic) (d : Diagnostic) : Bool :=
  config.exceeds key before d && !(offers before).any fun o => config.exceeds key o.1 o.2

/-- The diagnostics that are kept. -/
def kept (ds : List Diagnostic) : List Diagnostic :=
  ((offers ds).filter fun o => config.keeps key o.1 o.2).map (·.2)

/-- What comes into the queue at an offer. -/
def arrival (before : List Diagnostic) (d : Diagnostic) : List Diagnostic :=
  if config.keeps key before d then [d]
  else if config.closes key before d then [.tooManyErrors config.errorLimit ⟨d.offset, d.offset⟩]
  else []

/-- What is in the queue, in order of arrival. -/
def arrivals (ds : List Diagnostic) : List Diagnostic :=
  (offers ds).flatMap fun o => config.arrival key o.1 o.2

end Offering

/-! ### One more offer -/

variable {κ : Type} [DecidableEq κ] {config : QueueConfig} {key : Diagnostic → κ}

section Concat

variable {ds : List Diagnostic} {d : Diagnostic}

theorem counting_concat :
    config.counting key (ds ++ [d]) =
      config.counting key ds ++ if config.counts key ds d then [d] else [] := by
  cases h : config.counts key ds d <;> simp [counting, h]

theorem kept_concat :
    config.kept key (ds ++ [d]) =
      config.kept key ds ++ if config.keeps key ds d then [d] else [] := by
  cases h : config.keeps key ds d <;> simp [kept, h]

theorem arrivals_concat :
    config.arrivals key (ds ++ [d]) = config.arrivals key ds ++ config.arrival key ds d := by
  simp [arrivals]

theorem isFull_iff :
    config.isFull key ds = true ↔
      0 < config.errorLimit ∧ config.errorLimit ≤ (config.counting key ds).length := by
  simp [isFull]

/-- Once the limit is reached, what counts makes no difference any more. -/
theorem admitted_concat :
    config.admitted key (ds ++ [d]) =
      config.admitted key ds ++
        if config.counts key ds d && !config.isFull key ds then [d] else [] := by
  unfold admitted
  rw [counting_concat]
  by_cases hzero : config.errorLimit = 0
  · have hopen : config.isFull key ds = false := by simp [isFull, hzero]
    simp [hzero, hopen]
  · rw [if_neg hzero, if_neg hzero, List.take_append]
    cases hfull : config.isFull key ds with
    | true =>
      have hle := (isFull_iff.1 hfull).2
      have hnone : config.errorLimit - (config.counting key ds).length = 0 := by omega
      simp [hnone]
    | false =>
      have hlt : (config.counting key ds).length < config.errorLimit := by
        have hnot := mt isFull_iff.2 (Bool.eq_false_iff.1 hfull)
        omega
      cases config.counts key ds d with
      | false => simp
      | true =>
        obtain ⟨n, hn⟩ : ∃ n, config.errorLimit - (config.counting key ds).length = n + 1 :=
          ⟨config.errorLimit - (config.counting key ds).length - 1, by omega⟩
        simp [hn]

end Concat

/-! ### Errors that are kept -/

/-- Nothing but errors is turned away. -/
theorem filter_kept_not_isError (ds : List Diagnostic) :
    (config.kept key ds).filter (fun d => !d.isError) = ds.filter fun d => !d.isError := by
  induction ds using List.reverseRecOn with
  | nil => rfl
  | append_singleton ds d ih =>
    rw [kept_concat, List.filter_append, List.filter_append, ih]
    cases h : d.isError with
    | false => simp [keeps, h]
    | true =>
      cases config.keeps key ds d <;> simp [h]

/-- The errors that are kept are the first that count. -/
theorem filter_kept_isError (ds : List Diagnostic) :
    (config.kept key ds).filter (·.isError) = config.admitted key ds := by
  induction ds using List.reverseRecOn with
  | nil => simp [kept, admitted, counting]
  | append_singleton ds d ih =>
    rw [kept_concat, admitted_concat, List.filter_append, ih]
    congr 1
    cases h : d.isError with
    | false =>
      have hcounts : config.counts key ds d = false := by simp [counts, h]
      simp [keeps, h, hcounts]
    | true =>
      simp only [keeps, h, Bool.not_true, Bool.false_or]
      split <;> simp [h]

/-- As long as the limit is not reached, all errors that count are kept. -/
theorem admitted_of_not_isFull {ds : List Diagnostic} (h : config.isFull key ds = false) :
    config.admitted key ds = config.counting key ds := by
  unfold admitted
  split
  · rfl
  · have hnot := mt isFull_iff.2 (Bool.eq_false_iff.1 h)
    exact List.take_of_length_le (by omega)

/-- The limit is reached when that many errors are kept. -/
theorem isFull_eq (ds : List Diagnostic) :
    config.isFull key ds =
      (0 < config.errorLimit && config.errorLimit ≤ (config.admitted key ds).length : Bool) := by
  unfold isFull admitted
  by_cases hzero : config.errorLimit = 0
  · simp [hzero]
  · simp only [if_neg hzero, List.length_take, Nat.le_min, Nat.le_refl, true_and]

/-- Every key that an error had is that of an error that counts. -/
theorem any_counting_key (hdedup : config.deduplicate = true) (ds : List Diagnostic) (k : κ) :
    (config.counting key ds).any (fun e => key e == k) = ds.any fun e => e.isError && key e == k := by
  induction ds using List.reverseRecOn with
  | nil => rfl
  | append_singleton ds d ih =>
    rw [counting_concat, List.any_append, List.any_append, ih]
    cases herror : d.isError with
    | false => simp [counts, herror]
    | true =>
      cases hseen : ds.any fun e => e.isError && key e == key d with
      | false => simp [counts, herror, hdedup, hseen]
      | true =>
        -- The error is a duplicate, so if it has the key, one before it has it too.
        by_cases hk : key d = k
        · subst hk
          simp [counts, herror, hdedup, hseen]
        · simp [counts, herror, hdedup, hseen, hk]

/-- The first error always counts, and there is always room for it. -/
theorem admitted_eq_nil_iff (ds : List Diagnostic) :
    config.admitted key ds = [] ↔ ∀ d ∈ ds, d.isError = false := by
  induction ds using List.reverseRecOn with
  | nil => simp [admitted, counting]
  | append_singleton ds d ih =>
    rw [admitted_concat, List.append_eq_nil_iff, ih, List.forall_mem_append,
      List.forall_mem_singleton]
    refine and_congr_right fun hnone => ?_
    have hfull : config.isFull key ds = false := by
      rw [isFull_eq, ih.2 hnone, List.length_nil]
      cases config.errorLimit <;> rfl
    have hany : (ds.any fun e => e.isError && key e == key d) = false := by
      simp only [List.any_eq_false, Bool.and_eq_true, not_and]
      intro e he herror
      rw [hnone e he] at herror
      cases herror
    cases herror : d.isError <;> simp [counts, herror, hfull, hany]

/-! ### The closing diagnostic -/

/-- A full queue stays full. -/
theorem isFull_append {ds : List Diagnostic} (h : config.isFull key ds = true)
    (after : List Diagnostic) : config.isFull key (ds ++ after) = true := by
  induction after using List.reverseRecOn with
  | nil => rwa [List.append_nil]
  | append_singleton after d ih =>
    obtain ⟨hpos, hle⟩ := isFull_iff.1 ih
    refine isFull_iff.2 ⟨hpos, ?_⟩
    rw [← List.append_assoc, counting_concat, List.length_append]
    omega

/-- Once the queue is full, what is kept is what is no error. -/
theorem kept_append_of_isFull {ds : List Diagnostic} (h : config.isFull key ds = true)
    (after : List Diagnostic) :
    config.kept key (ds ++ after) = config.kept key ds ++ after.filter fun d => !d.isError := by
  induction after using List.reverseRecOn with
  | nil => simp
  | append_singleton after d ih =>
    rw [← List.append_assoc, kept_concat, ih, List.filter_append]
    cases hd : d.isError <;> simp [keeps, hd, isFull_append h after]

/-- As long as the limit is not exceeded, what comes in is what is kept. -/
theorem arrivals_of_within {ds : List Diagnostic} (h : config.Within key ds) :
    config.arrivals key ds = config.kept key ds := by
  induction ds using List.reverseRecOn with
  | nil => rfl
  | append_singleton ds d ih =>
    rw [Within, offers_concat, List.forall_mem_append, List.forall_mem_singleton] at h
    have hcloses : config.closes key ds d = false := by rw [closes, h.2, Bool.false_and]
    rw [arrivals_concat, kept_concat, ih h.1, arrival, hcloses]
    rfl

variable (config key) in
/-- The limit is never exceeded, or some error is the first to exceed it. -/
theorem within_or_exceeds (ds : List Diagnostic) :
    config.Within key ds ∨ ∃ before d after, ds = before ++ d :: after ∧ config.Within key before ∧
      config.exceeds key before d = true := by
  induction ds using List.reverseRecOn with
  | nil => exact .inl fun o ho => absurd ho List.not_mem_nil
  | append_singleton ds d ih =>
    rcases ih with hwithin | ⟨before, e, after, rfl, hwithin, h⟩
    · cases h : config.exceeds key ds d with
      | true => exact .inr ⟨ds, d, [], rfl, hwithin, h⟩
      | false =>
        refine .inl ?_
        rw [Within, offers_concat, List.forall_mem_append, List.forall_mem_singleton]
        exact ⟨hwithin, h⟩
    · exact .inr ⟨before, e, after ++ [d], by simp, hwithin, h⟩

/-- The first error that exceeds the limit leaves the closing diagnostic, and no later one does. -/
theorem arrivals_of_exceeds {before : List Diagnostic} {d : Diagnostic}
    (hwithin : config.Within key before) (h : config.exceeds key before d = true)
    (after : List Diagnostic) :
    config.arrivals key (before ++ d :: after) = config.kept key before ++
      .tooManyErrors config.errorLimit ⟨d.offset, d.offset⟩ ::
        after.filter (fun e => !e.isError) := by
  obtain ⟨herror, hfull⟩ := Bool.and_eq_true_iff.1 h
  induction after using List.reverseRecOn with
  | nil =>
    have hnone : ((offers before).any fun o => config.exceeds key o.1 o.2) = false :=
      List.any_eq_false.2 fun o ho => Bool.eq_false_iff.1 (hwithin o ho)
    rw [arrivals_concat, arrivals_of_within hwithin]
    simp [arrival, keeps, closes, hnone, h, herror, hfull]
  | append_singleton after e ih =>
    have hany : ((offers (before ++ d :: after)).any fun o => config.exceeds key o.1 o.2) = true :=
      List.any_eq_true.2 ⟨(before, d), mem_offers before d after, h⟩
    have hcloses : config.closes key (before ++ d :: after) e = false := by
      rw [closes, hany, Bool.not_true, Bool.and_false]
    rw [← List.cons_append, ← List.append_assoc, arrivals_concat, ih, List.filter_append]
    cases he : e.isError <;>
      simp [arrival, keeps, he, isFull_append hfull (d :: after), hcloses]

end QueueConfig

/-! ## A queue and its offers -/

namespace Queue

open QueueConfig

/-- What has one hashed key has one key, and the other way round, among these errors. -/
def Tells {κ : Type} (hash : String → UInt64) (key : Diagnostic → κ) (ds : List Diagnostic) : Prop :=
  ∀ d ∈ ds, ∀ e ∈ ds, d.isError = true → e.isError = true →
    (d.key hash = e.key hash ↔ key d = key e)

theorem tells_key (hash : String → UInt64) (ds : List Diagnostic) :
    Tells hash (Diagnostic.key hash) ds :=
  fun _ _ _ _ _ _ => Iff.rfl

theorem Tells.subset {κ : Type} {hash : String → UInt64} {key : Diagnostic → κ}
    {ds ds' : List Diagnostic} (h : Tells hash key ds') (hsub : ds ⊆ ds') : Tells hash key ds :=
  fun d hd e he => h d (hsub hd) e (hsub he)

/-- The queue is what these offers make of a new one. -/
structure Reflects {κ : Type} [DecidableEq κ] (hash : String → UInt64) (key : Diagnostic → κ)
    (config : QueueConfig) (ds : List Diagnostic) (q : Queue) : Prop where
  config_eq : q.config = config
  entries : q.entries = config.arrivals key ds
  errorCount : q.errorCount = (config.admitted key ds).length
  seen : q.seen = (config.admitted key ds).map (Diagnostic.key hash)
  limitReported : q.limitReported = (offers ds).any fun o => config.exceeds key o.1 o.2

variable {κ : Type} [DecidableEq κ] {hash : String → UInt64} {key : Diagnostic → κ}
variable {config : QueueConfig} {ds : List Diagnostic} {q : Queue}

theorem reflects_ofConfig (hash : String → UInt64) (key : Diagnostic → κ) (config : QueueConfig) :
    Reflects hash key config [] (ofConfig config) := by
  constructor <;> simp [ofConfig, arrivals, admitted, counting]

theorem Reflects.limitReached (h : Reflects hash key config ds q) :
    q.limitReached = config.isFull key ds := by
  rw [Queue.limitReached, h.config_eq, h.errorCount, isFull_eq]

theorem mem_of_mem_counting {e : Diagnostic} (h : e ∈ config.counting key ds) :
    e ∈ ds ∧ e.isError = true := by
  obtain ⟨o, ho, rfl⟩ := List.mem_map.1 h
  obtain ⟨hoffer, hcounts⟩ := List.mem_filter.1 ho
  refine ⟨?_, (Bool.and_eq_true_iff.1 hcounts).1⟩
  obtain ⟨⟨d, i⟩, hmem, rfl⟩ := List.mem_map.1 hoffer
  exact List.fst_mem_of_mem_zipIdx hmem

/-- A queue that is not full has seen exactly the keys of the errors offered. -/
theorem Reflects.duplicate (h : Reflects hash key config ds q) (hopen : config.isFull key ds = false)
    {d : Diagnostic} (hd : d.isError = true) (htells : Tells hash key (ds ++ [d])) :
    (q.config.deduplicate && q.seen.contains (d.key hash)) =
      (config.deduplicate && ds.any fun e => e.isError && key e == key d) := by
  rw [h.config_eq]
  cases hdedup : config.deduplicate with
  | false => rfl
  | true =>
    have hseen : q.seen = (config.counting key ds).map (Diagnostic.key hash) := by
      rw [h.seen, admitted_of_not_isFull hopen]
    rw [Bool.true_and, Bool.true_and, ← any_counting_key hdedup, hseen, Bool.eq_iff_iff]
    simp only [List.contains_iff_mem, List.mem_map, List.any_eq_true, beq_iff_eq]
    refine exists_congr fun e => and_congr_right fun he => ?_
    obtain ⟨hmem, herror⟩ := mem_of_mem_counting he
    exact htells e (List.mem_append_left _ hmem) d (by simp) herror hd

/-- What an offer does to a queue, in terms of the offers before it. -/
theorem Reflects.add_eq (h : Reflects hash key config ds q) {d : Diagnostic}
    (htells : Tells hash key (ds ++ [d])) :
    let new := if config.counts key ds d && !config.isFull key ds then [d] else []
    q.add hash d = (config.keeps key ds d, { q with
      entries := q.entries ++ config.arrival key ds d
      errorCount := q.errorCount + new.length
      seen := q.seen ++ new.map (Diagnostic.key hash)
      limitReported := q.limitReported || config.exceeds key ds d }) := by
  unfold Queue.add
  rw [h.limitReached]
  cases herror : d.isError with
  | false => simp [arrival, keeps, counts, exceeds, herror]
  | true =>
    cases hfull : config.isFull key ds with
    | true =>
      -- The limit has been reached; the first error from then on leaves the closing diagnostic.
      cases hreported : q.limitReported with
      | true =>
        have hcloses : config.closes key ds d = false := by
          rw [closes, ← h.limitReported, hreported, Bool.not_true, Bool.and_false]
        have hsame : { q with limitReported := true } = q := by rw [← hreported]
        simpa [refuse, arrival, keeps, exceeds, herror, hfull, hreported, hcloses] using hsame.symm
      | false =>
        have hcloses : config.closes key ds d = true := by
          rw [closes, ← h.limitReported, hreported, exceeds, herror, hfull]
          rfl
        simp [refuse, arrival, keeps, exceeds, herror, hfull, hreported, hcloses, h.config_eq]
    | false =>
      rw [h.duplicate hfull herror htells]
      have hcounts : config.counts key ds d =
          !(config.deduplicate && ds.any fun e => e.isError && key e == key d) := by
        rw [counts, herror, Bool.true_and]
      cases hseen : config.deduplicate && ds.any fun e => e.isError && key e == key d with
      | true => simp [arrival, keeps, closes, exceeds, herror, hfull, hcounts, hseen]
      | false => simp [arrival, keeps, exceeds, herror, hfull, hcounts, hseen]

/-- After an offer the queue reflects one offer more. -/
theorem Reflects.add (h : Reflects hash key config ds q) {d : Diagnostic}
    (htells : Tells hash key (ds ++ [d])) :
    Reflects hash key config (ds ++ [d]) (q.add hash d).2 := by
  rw [h.add_eq htells]
  constructor
  · exact h.config_eq
  · rw [arrivals_concat, ← h.entries]
  · rw [admitted_concat, List.length_append, ← h.errorCount]
  · rw [admitted_concat, List.map_append, ← h.seen]
  · simp [h.limitReported]

theorem Reflects.addAll (h : Reflects hash key config ds q) {new : List Diagnostic}
    (htells : Tells hash key (ds ++ new)) :
    Reflects hash key config (ds ++ new) (q.addAll hash new).2 := by
  induction new generalizing ds q with
  | nil =>
    rw [List.append_nil]
    exact h
  | cons d new ih =>
    rw [List.append_cons] at htells ⊢
    exact ih (h.add (htells.subset (List.subset_append_left _ _))) htells

/-- Offers made together are answered by the number of those that are kept. -/
theorem Reflects.count_addAll (h : Reflects hash key config ds q) {new : List Diagnostic}
    (htells : Tells hash key (ds ++ new)) :
    (config.kept key ds).length + (q.addAll hash new).1 = (config.kept key (ds ++ new)).length := by
  induction new generalizing ds q with
  | nil => rw [List.append_nil, Queue.addAll, Nat.add_zero]
  | cons d new ih =>
    rw [List.append_cons] at htells
    have hone : Tells hash key (ds ++ [d]) := htells.subset (List.subset_append_left _ _)
    have hrest := ih (h.add hone) htells
    have hanswer : (q.add hash d).1 = config.keeps key ds d := congrArg Prod.fst (h.add_eq hone)
    rw [List.append_cons, ← hrest, kept_concat, Queue.addAll]
    dsimp only
    rw [hanswer]
    cases config.keeps key ds d with
    | true => simp; omega
    | false => simp

/-- A flush leaves a new queue. -/
theorem flush_snd (q : Queue) : q.flush.2 = ofConfig q.config := rfl

theorem config_add (q : Queue) (d : Diagnostic) : (q.add hash d).2.config = q.config := by
  unfold Queue.add refuse
  split
  · rfl
  split
  · split <;> rfl
  split <;> rfl

theorem config_addAll (q : Queue) (ds : List Diagnostic) :
    (q.addAll hash ds).2.config = q.config := by
  induction ds generalizing q with
  | nil => rfl
  | cons d ds ih => exact (ih _).trans (q.config_add d)

theorem config_afterAll (q : Queue) (cs : List Call) : (q.afterAll hash cs).config = q.config := by
  induction cs generalizing q with
  | nil => rfl
  | cons c cs ih =>
    refine (ih (q.after hash c)).trans ?_
    cases c with
    | add d => exact q.config_add d
    | addAll ds => exact q.config_addAll ds
    | flush | peek => rfl

/-- Whatever was called, the queue reflects the offers since the last flush, if the hash tells these
apart. What happened before is of no matter. -/
theorem reflects_calls (config : QueueConfig) {cs : List Call}
    (htells : Tells hash key (offered cs)) :
    Reflects hash key config (offered cs) ((ofConfig config).afterAll hash cs) := by
  induction cs using List.reverseRecOn with
  | nil => exact reflects_ofConfig hash key config
  | append_singleton cs c ih =>
    rw [offered_concat] at htells
    rw [offered_concat, afterAll_concat]
    cases c with
    | add d => exact (ih (htells.subset (List.subset_append_left _ _))).add htells
    | addAll new => exact (ih (htells.subset (List.subset_append_left _ _))).addAll htells
    | flush =>
      rw [after, flush_snd, config_afterAll]
      exact reflects_ofConfig hash key config
    | peek => exact ih htells

/-! ## Flushing -/

/-- The second list holds what the first holds, by offset, and diagnostics of one offset in the
order in which the first has them. -/
structure ByOffset (ds sorted : List Diagnostic) : Prop where
  ascending : sorted.Pairwise fun a b => a.offset ≤ b.offset
  stable : ∀ offset, sorted.filter (·.offset = offset) = ds.filter (·.offset = offset)

theorem offset_trans (a b c : Diagnostic) (hab : decide (a.offset ≤ b.offset) = true)
    (hbc : decide (b.offset ≤ c.offset) = true) : decide (a.offset ≤ c.offset) = true := by
  simp only [decide_eq_true_eq] at *
  omega

theorem offset_total (a b : Diagnostic) :
    (decide (a.offset ≤ b.offset) || decide (b.offset ≤ a.offset)) = true := by
  simp only [Bool.or_eq_true, decide_eq_true_eq]
  omega

/-- Neighbours that ascend make a list that ascends. -/
theorem ascends_iff {ds : List Diagnostic} :
    ascends ds = true ↔ ds.Pairwise fun a b => decide (a.offset ≤ b.offset) = true := by
  fun_induction ascends ds with
  | case1 a b ds ih =>
    simp only [Bool.and_eq_true, ih, List.pairwise_cons (a := a)]
    refine and_congr_left fun hrest => ⟨fun hab c hc => ?_, fun h => h b (by simp)⟩
    rcases List.mem_cons.1 hc with rfl | hc
    · exact hab
    · exact offset_trans a b c hab ((List.pairwise_cons.1 hrest).1 c hc)
  | case2 ds h =>
    match ds, h with
    | [], _ => simp
    | [d], _ => simp
    | a :: b :: ds, h => exact absurd rfl (h a b ds)

/-- Whether it sorts or not, a flush hands back the sorted entries: sorting leaves a list that
ascends as it is. -/
theorem flush_fst (q : Queue) :
    q.flush.1 = q.entries.mergeSort (fun a b => a.offset ≤ b.offset) := by
  unfold flush
  dsimp only
  split
  · next h => exact (List.mergeSort_of_pairwise (ascends_iff.1 h)).symm
  · rfl

theorem flush_byOffset (q : Queue) : ByOffset q.entries q.flush.1 := by
  rw [flush_fst]
  have hperm := List.mergeSort_perm q.entries (fun a b => decide (a.offset ≤ b.offset))
  refine ⟨?_, fun offset => ?_⟩
  · exact (List.pairwise_mergeSort offset_trans offset_total q.entries).imp of_decide_eq_true
  · -- The entries of one offset are in order as they stand, so sorting keeps them in that order.
    have hsame : (q.entries.filter (·.offset = offset)).Pairwise
        fun a b => decide (a.offset ≤ b.offset) = true := by
      refine List.pairwise_of_forall_mem_list fun a ha b hb => ?_
      have ha := of_decide_eq_true (List.mem_filter.1 ha).2
      have hb := of_decide_eq_true (List.mem_filter.1 hb).2
      exact decide_eq_true (Nat.le_of_eq (ha.trans hb.symm))
    have hsub := List.sublist_mergeSort offset_trans offset_total hsame List.filter_sublist
    have hfilter := hsub.filter (·.offset = offset)
    rw [List.filter_filter] at hfilter
    simp only [Bool.and_self] at hfilter
    exact (hfilter.eq_of_length (hperm.filter _).length_eq.symm).symm

end Queue

/-! ## The answers of a queue -/

/-- What tells two errors apart: code, offset, and how the message begins. -/
def Diagnostic.signature (d : Diagnostic) : Code × Nat × String := (d.code, d.offset, d.opening)

/-- How the messages of the errors among these begin. -/
def errorOpenings (ds : List Diagnostic) : Set String :=
  {s | ∃ d ∈ ds, d.isError = true ∧ d.opening = s}

/-- A hash without collisions among the openings tells apart what the openings do. -/
theorem Queue.tells_signature {hash : String → UInt64} {ds : List Diagnostic}
    (h : Set.InjOn hash (errorOpenings ds)) : Queue.Tells hash Diagnostic.signature ds := by
  intro d hd e he hde hee
  simp only [Diagnostic.key, Diagnostic.signature, ErrorKey.mk.injEq, Prod.mk.injEq]
  exact and_congr_right fun _ => and_congr_right fun _ =>
    ⟨fun hopening => h ⟨d, hd, hde, rfl⟩ ⟨e, he, hee, rfl⟩ hopening, congrArg hash⟩

/-- What a queue holds and answers after any sequence of calls, in terms of what was offered since
it was last emptied, if the hash has no collisions among the openings of the errors offered. -/
theorem Queue.answers_offered (hash : String → UInt64) (config : QueueConfig) (cs : List Queue.Call)
    (hhash : Set.InjOn hash (errorOpenings (Queue.offered cs))) :
    let q := (Queue.ofConfig config).afterAll hash cs
    let ds := Queue.offered cs
    let key := Diagnostic.signature
    -- What is kept.
    (config.kept key ds).filter (fun d => !d.isError) = ds.filter (fun d => !d.isError) ∧
    (config.kept key ds).filter (·.isError) = config.admitted key ds ∧
    -- What is in the queue: nothing else as long as no error exceeds the limit, and one closing
    -- diagnostic where the first one did.
    (config.Within key ds ∧ q.entries = config.kept key ds ∨
      ∃ before d after, ds = before ++ d :: after ∧ config.Within key before ∧
        config.exceeds key before d = true ∧
        config.kept key ds = config.kept key before ++ after.filter (fun e => !e.isError) ∧
        q.entries = config.kept key before ++
          .tooManyErrors config.errorLimit ⟨d.offset, d.offset⟩ ::
            after.filter (fun e => !e.isError)) ∧
    -- What the queue says of itself.
    q.errorCount = (config.admitted key ds).length ∧
    (config.errorLimit = 0 ∨ q.errorCount ≤ config.errorLimit) ∧
    (q.hasErrors = true ↔ ∃ d ∈ ds, d.isError = true) ∧
    -- What the next call answers.
    (∀ d, Set.InjOn hash (errorOpenings (ds ++ [d])) →
      (q.add hash d).1 = config.keeps key ds d) ∧
    (∀ new, Set.InjOn hash (errorOpenings (ds ++ new)) →
      (config.kept key ds).length + (q.addAll hash new).1 = (config.kept key (ds ++ new)).length) ∧
    -- A flush hands back the stable sort by offset, whether it has to sort or not.
    q.flush.1 = q.entries.mergeSort (fun a b => a.offset ≤ b.offset) ∧
    Queue.ByOffset q.entries q.flush.1 ∧ q.flush.2 = Queue.ofConfig config := by
  intro q ds key
  have h : Queue.Reflects hash key config ds q :=
    Queue.reflects_calls config (Queue.tells_signature hhash)
  refine ⟨QueueConfig.filter_kept_not_isError ds, QueueConfig.filter_kept_isError ds, ?_,
    h.errorCount, ?_, ?_,
    fun d hd => congrArg Prod.fst (h.add_eq (Queue.tells_signature hd)),
    fun new hnew => h.count_addAll (Queue.tells_signature hnew), q.flush_fst, q.flush_byOffset, ?_⟩
  · rw [h.entries]
    rcases QueueConfig.within_or_exceeds config key ds with
      hwithin | ⟨before, d, after, hds, hwithin, hexceeds⟩
    · exact .inl ⟨hwithin, QueueConfig.arrivals_of_within hwithin⟩
    · obtain ⟨herror, hfull⟩ := Bool.and_eq_true_iff.1 hexceeds
      refine .inr ⟨before, d, after, hds, hwithin, hexceeds, ?_, ?_⟩
      · rw [hds, QueueConfig.kept_append_of_isFull hfull,
          List.filter_cons_of_neg (by simp [herror])]
      · rw [hds, QueueConfig.arrivals_of_exceeds hwithin hexceeds]
  · by_cases hzero : config.errorLimit = 0
    · exact .inl hzero
    · refine .inr ?_
      rw [h.errorCount, QueueConfig.admitted, if_neg hzero]
      exact List.length_take_le _ _
  · have hnil : config.admitted key ds = [] ↔ _ := QueueConfig.admitted_eq_nil_iff ds
    rw [Queue.hasErrors, h.errorCount, decide_eq_true_eq, List.length_pos_iff, ne_eq, hnil]
    simp
  · rw [Queue.flush_snd, h.config_eq]

/-- Two errors fit. The first is offered again at once, which is a repetition, and once more when
none fits, which leaves the closing diagnostic. The entries do not ascend, so they are sorted. -/
theorem Queue.answers_offered_sorts :
    let late : Diagnostic := ⟨.arityMismatch, .error, "late", [.primary ⟨9, 10⟩ "here"], [], []⟩
    let early : Diagnostic := ⟨.invalidLeftShape, .error, "early", [.primary ⟨2, 3⟩ "here"], [], []⟩
    let closing : Diagnostic := .tooManyErrors 2 ⟨9, 9⟩
    let hash := fun s : String => s.length.toUInt64
    let cs := [Queue.Call.add early, .flush, .add late, .peek, .addAll [late, early, late]]
    let q := (Queue.ofConfig ⟨2, true⟩).afterAll hash cs
    Set.InjOn hash (errorOpenings (Queue.offered cs)) ∧
      q.entries = [late, early, closing] ∧ q.errorCount = 2 ∧ Queue.ascends q.entries = false ∧
      Queue.ByOffset [late, early, closing] q.flush.1 ∧ q.flush.2 = Queue.ofConfig ⟨2, true⟩ := by
  intro late early closing hash cs q
  have hhash : Set.InjOn hash (errorOpenings (Queue.offered cs)) := by
    have hopenings : ∀ s ∈ errorOpenings (Queue.offered cs), s = "late" ∨ s = "early" := by
      rintro s ⟨d, hd, -, rfl⟩
      revert d
      decide
    intro s hs t ht heq
    rcases hopenings s hs with rfl | rfl <;> rcases hopenings t ht with rfl | rfl <;>
      first | rfl | exact absurd heq (by decide)
  obtain ⟨-, -, -, -, -, -, -, -, -, hsorted, hnew⟩ :=
    Queue.answers_offered hash ⟨2, true⟩ cs hhash
  have hentries : q.entries = [late, early, closing] := by decide
  exact ⟨hhash, hentries, by decide, by decide, hentries ▸ hsorted, hnew⟩

/-! ## Duplicates -/

namespace Queue

open QueueConfig

variable {hash : String → UInt64} {config : QueueConfig} {ds : List Diagnostic} {q : Queue}

/-- As long as the queue is not full, the key of every error in it has been seen. -/
theorem Reflects.key_mem_seen {κ : Type} [DecidableEq κ] {key : Diagnostic → κ}
    (h : Reflects hash key config ds q) (hopen : config.isFull key ds = false) {e : Diagnostic}
    (he : e ∈ q.entries) (herror : e.isError = true) : e.key hash ∈ q.seen := by
  rcases within_or_exceeds config key ds with
    hwithin | ⟨before, d, after, rfl, -, hexceeds⟩
  · rw [h.entries, arrivals_of_within hwithin] at he
    rw [h.seen, ← filter_kept_isError]
    exact List.mem_map_of_mem (List.mem_filter.2 ⟨he, herror⟩)
  · -- An error has exceeded the limit, so the queue has been full since.
    have hfull := isFull_append (Bool.and_eq_true_iff.1 hexceeds).2 (d :: after)
    rw [hfull] at hopen
    cases hopen

/-- An error with the key of one that is in the queue is turned away. It leaves a trace only if the
limit has been reached and nothing has said so yet. -/
theorem Reflects.add_of_key_eq {κ : Type} [DecidableEq κ] {key : Diagnostic → κ}
    (h : Reflects hash key config ds q) (hdedup : config.deduplicate = true) {e d : Diagnostic}
    (he : e ∈ q.entries) (herror : e.isError = true) (hd : d.isError = true)
    (hkey : d.key hash = e.key hash) :
    q.add hash d = (false, if q.limitReached then q.refuse d else q) := by
  unfold Queue.add
  rw [hd]
  cases hlimit : q.limitReached with
  | true => rfl
  | false =>
    have hopen : config.isFull key ds = false := h.limitReached ▸ hlimit
    have hseen : d.key hash ∈ q.seen := by
      rw [hkey]
      exact h.key_mem_seen hopen he herror
    simp [h.config_eq, hdedup, hseen]

end Queue

/-- A duplicate of an error in the queue is turned away and leaves the queue as it was, unless it is
the first error to come after the limit was reached. Then it leaves the closing diagnostic, and
nothing else changes. This is so whatever the hash. -/
theorem Queue.add_duplicate (hash : String → UInt64) (config : QueueConfig)
    (hdedup : config.deduplicate = true) (cs : List Queue.Call) {e d : Diagnostic}
    (he : e ∈ ((Queue.ofConfig config).afterAll hash cs).entries) (herror : e.isError = true)
    (hd : d.isError = true) (hcode : d.code = e.code) (hoffset : d.offset = e.offset)
    (hmessage : d.message = e.message) :
    let q := (Queue.ofConfig config).afterAll hash cs
    (q.add hash d).1 = false ∧
    ((q.add hash d).2 = q ↔ (q.limitReached = true → q.limitReported = true)) ∧
    (q.limitReached = true → q.limitReported = false → (q.add hash d).2 = { q with
      limitReported := true
      entries := q.entries ++ [.tooManyErrors config.errorLimit ⟨d.offset, d.offset⟩] }) := by
  intro q
  have h : Queue.Reflects hash (Diagnostic.key hash) config (Queue.offered cs) q :=
    Queue.reflects_calls config (Queue.tells_key hash _)
  have hkey : d.key hash = e.key hash := by
    simp only [Diagnostic.key, Diagnostic.opening, hcode, hoffset, hmessage]
  have hadd := h.add_of_key_eq hdedup he herror hd hkey
  rw [hadd]
  refine ⟨rfl, ?_, fun hlimit hreported => ?_⟩
  · cases hlimit : q.limitReached with
    | false => simp
    | true =>
      cases hreported : q.limitReported with
      | true => simp [Queue.refuse, hreported]
      | false =>
        -- The queue gains an entry, so it cannot be what it was.
        have hne : q.refuse d ≠ q := by
          intro heq
          have hlength := congrArg (fun q => q.entries.length) heq
          simp [Queue.refuse, hreported] at hlength
        simpa using hne
  · simp [Queue.refuse, hlimit, hreported, h.config_eq]

/-- An error offered again with a note: it leaves no trace while one more error would fit, and the
closing diagnostic once none does. -/
theorem Queue.add_duplicate_with_note :
    let e : Diagnostic := { code := .arityMismatch, message := "first" }
    let other : Diagnostic := { code := .invalidLeftShape, message := "second" }
    let again := { e with notes := ["again"] }
    let hash := fun s : String => s.length.toUInt64
    let roomy := (Queue.ofConfig ⟨2, true⟩).afterAll hash [.add e]
    let full := (Queue.ofConfig ⟨2, true⟩).afterAll hash [.add e, .add other]
    (e ∈ roomy.entries ∧ (roomy.add hash again).1 = false ∧ (roomy.add hash again).2 = roomy) ∧
      e ∈ full.entries ∧ full.limitReached = true ∧ full.limitReported = false ∧
      (full.add hash again).1 = false ∧
      (full.add hash again).2.entries = [e, other, .tooManyErrors 2 ⟨0, 0⟩] := by
  intro e other again hash roomy full
  have hroomy : e ∈ roomy.entries := by decide
  have hfull : e ∈ full.entries := by decide
  obtain ⟨hfalse, hsame, -⟩ :=
    Queue.add_duplicate hash ⟨2, true⟩ (d := again) rfl [.add e] hroomy rfl rfl rfl rfl rfl
  obtain ⟨hfalse', -, hleft⟩ :=
    Queue.add_duplicate hash ⟨2, true⟩ (d := again) rfl [.add e, .add other] hfull rfl rfl
      rfl rfl rfl
  refine ⟨⟨hroomy, hfalse, hsame.2 fun hlimit => ?_⟩, hfull, by decide, by decide, hfalse', ?_⟩
  · revert hlimit
    decide
  · rw [hleft (by decide) (by decide)]
    rfl

/-- With room for one error, offering it twice leaves more behind than offering it once. -/
theorem Queue.add_duplicate_at_limit :
    let e : Diagnostic := { code := .arityMismatch, message := "first" }
    let hash := fun s : String => s.length.toUInt64
    let q := (Queue.ofConfig ⟨1, true⟩).afterAll hash [.add e]
    e ∈ q.entries ∧ e.isError = true ∧ (q.add hash e).2 ≠ q ∧ q.flush.1 = [e] ∧
      (q.add hash e).2.flush.1 = [e, .tooManyErrors 1 ⟨0, 0⟩] := by
  intro e hash q
  exact ⟨by decide, by decide, by decide, by decide, by decide⟩

end TupleAssign
