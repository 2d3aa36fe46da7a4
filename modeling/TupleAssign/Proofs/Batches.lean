import Mathlib.Data.List.FinRange
import TupleAssign.Batch
import TupleAssign.Tree.Print
import TupleAssign.Proofs.Interning
import TupleAssign.Proofs.Reporting
/-!
# Batches in any order

The units of a batch share nothing but the table of names. The order in which they are processed
decides which numbers the names of temporaries get. What a run makes of a unit depends neither on
these nor on what else is in the table, as long as the names of the unit are
(`Program.Stands.runOne`). So each unit comes out as if it had been alone (`Batch.runInOrder_load`).
-/

namespace TupleAssign

open Store

/-! ## Batches -/

namespace Batch

/-- Loads the units of a batch, one after the other, with one table of names. -/
def load : List Tree.CompilationUnit → Interner → List Program × Interner
  | [], names => ([], names)
  | u :: us, names =>
    let (p, names) := Program.load u names
    let (ps, names) := load us names
    (p :: ps, names)

/-- What came in some order of positions, in the order of positions. -/
def sorted {α : Type} {n : Nat} (order : List (Fin n)) (as : List α) : List α :=
  (List.finRange n).filterMap fun i => as[order.idxOf i]?

/-- Runs over the units in the given order of their positions. Reports come in the order of the
units. -/
def runInOrder (hash : String → UInt64) (config : BatchConfig) (ps : List Program)
    (order : List (Fin ps.length)) (names : Interner) :
    Except Fault (List (Report × Program) × Interner) := do
  let (rs, names) ← run hash config (order.map ps.get) names
  return (sorted order rs, names)

/-- A report as it is, its outcome with all names spelled out, and the text of its unit. -/
def printed (names : Interner) (r : Report × Program) :
    Except Fault (Report × Outcome String × String) := do
  return (r.1, r.1.outcome.map names.lookup, Tree.renderUnit (← r.2.read names))

/-- The report and the text of a unit that is processed on its own. -/
def answer (hash : String → UInt64) (config : BatchConfig) (names : Interner) (p : Program) :
    Except Fault (Report × Outcome String × String) := do
  let (report, p, names) ← runOne hash config p names
  printed names (report, p)

end Batch

/-! ## One unit -/

/-- The unit is stored in distinct nodes of the program, and its names are in the table. -/
def Program.Stands (p : Program) (names : Interner) (u : Tree.CompilationUnit) : Prop :=
  ∃ fp, UnitAt p names.Knows u fp ∧ fp.Nodup

/-- The diagnostics are those of the outcome as it is spelled. -/
theorem Outcome.SpelledBy.report {o : Outcome} {names : Interner} {o' : Outcome String}
    (h : o.SpelledBy names o') (hash : String → UInt64) (config : QueueConfig) :
    o.report hash config names =
      ⟨o, ((Queue.ofConfig config).addAll hash (o'.diagnostics fun s => s)).2.flush.1⟩ := by
  have hdiagnostics := Outcome.diagnostics_map names.lookup (fun s => s) o
  rw [h _ names.spelledAs_lookup] at hdiagnostics
  rw [Outcome.report, hdiagnostics]
  rfl

namespace Program.Stands

variable {p : Program} {names names' : Interner} {u : Tree.CompilationUnit}

theorem keeps (h : p.Stands names u) (hkeeps : names.Keeps names') : p.Stands names' u := by
  obtain ⟨fp, hunit, hnodup⟩ := h
  exact ⟨fp, hunit.imp hkeeps, hnodup⟩

theorem printed (h : p.Stands names u) {report : Report} {o : Outcome String}
    (ho : report.outcome.SpelledBy names o) :
    Batch.printed names (report, p) = .ok (report, o, Tree.renderUnit u) := by
  obtain ⟨fp, hunit, hnodup⟩ := h
  have hread := hunit.read_known hnodup
  have hspelled := ho _ names.spelledAs_lookup
  simp only [Batch.printed, hread, hspelled, bind, Except.bind, pure, Except.pure]

variable (hash : String → UInt64) (config : BatchConfig)

/-- In every table that keeps the names of the unit, the report is the same one, and so is the unit
that is stored in the end. What is entered depends on the unit alone. -/
theorem runOne (h : p.Stands names u) :
    ∃ report : Report, report.outcome.SpelledBy names (Rewrite.run config.desugar u).1 ∧
      ∀ names', names.Keeps names' → ∃ p' names'',
        Batch.runOne hash config p names' = .ok (report, p', names'') ∧
        p'.Stands names'' (Rewrite.run config.desugar u).2 ∧ names'.Keeps names'' ∧
        ∀ x, x ∈ names''.strings ↔
          x ∈ names'.strings ∨ x ∈ Rewrite.interned config.desugar u := by
  obtain ⟨fp, hunit, hnodup⟩ := h
  obtain ⟨o, ho, hruns⟩ := desugar_outcome hunit hnodup config.desugar
  refine ⟨o.report hash config.queue names, ho, fun names' hkeeps => ?_⟩
  obtain ⟨p', names'', fp', hrun, hkeeps', hunit', hnodup'⟩ := hruns names' hkeeps
  refine ⟨p', names'', ?_, ⟨fp', hunit', hnodup'⟩, hkeeps',
    desugar_strings (hunit.imp hkeeps) hnodup hrun⟩
  simp only [Batch.runOne, hrun, bind, Except.bind, pure, Except.pure,
    (ho.keeps (hkeeps.trans hkeeps')).report, ho.report]

/-- A unit is answered alike with any further strings in the table. -/
theorem exists_answer (h : p.Stands names u) :
    ∃ a, ∀ names', names.Keeps names' → Batch.answer hash config names' p = .ok a := by
  obtain ⟨report, ho, hruns⟩ := h.runOne hash config
  refine ⟨(report, (Rewrite.run config.desugar u).1,
    Tree.renderUnit (Rewrite.run config.desugar u).2), fun names' hkeeps => ?_⟩
  obtain ⟨p', names'', hrun, hstands, hkeeps', -⟩ := hruns names' hkeeps
  simp only [Batch.answer, hrun, bind, Except.bind]
  exact hstands.printed (ho.keeps (hkeeps.trans hkeeps'))

theorem answer_keeps (h : p.Stands names u) (hkeeps : names.Keeps names') :
    Batch.answer hash config names' p = Batch.answer hash config names p := by
  obtain ⟨a, ha⟩ := h.exists_answer hash config
  rw [ha names' hkeeps, ha names fun _ _ hn => hn]

end Program.Stands

/-! ## A batch -/

namespace Batch

theorem load_keeps (us : List Tree.CompilationUnit) (names : Interner) :
    names.Keeps (load us names).2 := by
  induction us generalizing names with
  | nil => exact fun _ _ hn => hn
  | cons u us ih => exact (Program.load_keeps u names).trans (ih _)

/-- Every program of a loaded batch holds its unit. -/
theorem load_stands {us : List Tree.CompilationUnit} {names : Interner}
    (hfits : ∀ p ∈ (load us names).1, p.store.arms.size ≤ absentRaw) :
    ∀ p ∈ (load us names).1, ∃ u, p.Stands (load us names).2 u := by
  induction us generalizing names with
  | nil => simp [load]
  | cons u us ih =>
    obtain ⟨hfit, hfits⟩ := List.forall_mem_cons.1 hfits
    refine List.forall_mem_cons.2 ⟨?_, ih hfits⟩
    obtain ⟨fp, hunit, hnodup⟩ := Program.load_unitAt u names hfit
    exact ⟨u, Program.Stands.keeps ⟨fp, hunit, hnodup⟩ (load_keeps us _)⟩

variable (hash : String → UInt64) (config : BatchConfig)

/-- The string is in the table when a run over the unit alone has ended. -/
def Leaves (names : Interner) (p : Program) (x : String) : Prop :=
  ∃ r, runOne hash config p names = .ok r ∧ x ∈ r.2.2.strings

theorem leaves_iff {p : Program} {names : Interner} {u : Tree.CompilationUnit}
    (h : p.Stands names u) (x : String) :
    Leaves hash config names p x ↔
      x ∈ names.strings ∨ x ∈ Rewrite.interned config.desugar u := by
  obtain ⟨report, -, hruns⟩ := h.runOne hash config
  obtain ⟨p', names', hrun, -, -, hstrings⟩ := hruns names fun _ _ hn => hn
  rw [← hstrings, Leaves, hrun]
  constructor
  · rintro ⟨r, hr, hx⟩
    cases hr
    exact hx
  · exact fun hx => ⟨_, rfl, hx⟩

/-- With more strings in the table, a run leaves these and what it would have left anyway. -/
theorem leaves_keeps {p : Program} {names names' : Interner} {u : Tree.CompilationUnit}
    (h : p.Stands names u) (hkeeps : names.Keeps names') (x : String) :
    x ∈ names'.strings ∨ Leaves hash config names' p x ↔
      x ∈ names'.strings ∨ Leaves hash config names p x := by
  have hold : x ∈ names.strings → x ∈ names'.strings := hkeeps.mem
  rw [leaves_iff hash config h, leaves_iff hash config (h.keeps hkeeps)]
  tauto

/-- Units that are processed one after the other come out as if each had been alone. -/
theorem run_eq {ps : List Program} {names : Interner} (hps : ∀ p ∈ ps, ∃ u, p.Stands names u) :
    ∃ rs names', run hash config ps names = .ok (rs, names') ∧ names.Keeps names' ∧
      rs.map (printed names') = ps.map (answer hash config names) ∧
      ∀ x, x ∈ names'.strings ↔ x ∈ names.strings ∨ ∃ p ∈ ps, Leaves hash config names p x := by
  induction ps generalizing names with
  | nil => exact ⟨[], names, rfl, fun _ _ hn => hn, rfl, by simp⟩
  | cons p ps ih =>
    obtain ⟨⟨u, hu⟩, hps⟩ := List.forall_mem_cons.1 hps
    obtain ⟨report, ho, hruns⟩ := hu.runOne hash config
    obtain ⟨p₁, names₁, hrun, hp₁, hkeeps, hstrings⟩ := hruns names fun _ _ hn => hn
    have hps₁ : ∀ q ∈ ps, ∃ v, q.Stands names₁ v := by
      intro q hq
      obtain ⟨v, hv⟩ := hps q hq
      exact ⟨v, hv.keeps hkeeps⟩
    obtain ⟨rs, names', hrest, hkeeps', hprinted, hstrings'⟩ := ih hps₁
    refine ⟨(report, p₁) :: rs, names', ?_, hkeeps.trans hkeeps', ?_, fun x => ?_⟩
    · simp only [run, hrun, hrest, bind, Except.bind, pure, Except.pure]
    · have hhead : printed names' (report, p₁) = answer hash config names p := by
        rw [(hp₁.keeps hkeeps').printed (ho.keeps (hkeeps.trans hkeeps')), answer, hrun]
        exact (hp₁.printed (ho.keeps hkeeps)).symm
      have htail : ps.map (answer hash config names₁) = ps.map (answer hash config names) := by
        refine List.map_congr_left fun q hq => ?_
        obtain ⟨v, hv⟩ := hps q hq
        exact hv.answer_keeps hash config hkeeps
      rw [List.map_cons, List.map_cons, hprinted, hhead, htail]
    · rw [hstrings' x, List.exists_mem_cons_iff, leaves_iff hash config hu, ← hstrings x]
      -- What another unit leaves differs only in what the first one entered.
      constructor
      · rintro (hx | ⟨q, hq, hx⟩)
        · exact .inr (.inl hx)
        · obtain ⟨v, hv⟩ := hps q hq
          rcases (leaves_keeps hash config hv hkeeps x).1 (.inr hx) with hx | hx
          · exact .inr (.inl hx)
          · exact .inr (.inr ⟨q, hq, hx⟩)
      · rintro (hx | hx | ⟨q, hq, hx⟩)
        · exact .inl (hkeeps.mem hx)
        · exact .inl hx
        · obtain ⟨v, hv⟩ := hps q hq
          exact ((leaves_keeps hash config hv hkeeps x).2 (.inr hx)).imp_right
            fun hx => ⟨q, hq, hx⟩

/-! ## Any order -/

theorem sorted_map {α : Type} {n : Nat} {order : List (Fin n)}
    (horder : order.Perm (List.finRange n)) (f : Fin n → α) :
    sorted order (order.map f) = (List.finRange n).map f := by
  have hget : ∀ i, (order.map f)[order.idxOf i]? = some (f i) := by
    intro i
    have hmem : i ∈ order := horder.mem_iff.2 (List.mem_finRange i)
    rw [List.getElem?_map, List.getElem?_idxOf hmem, Option.map_some]
  simp only [sorted, hget]
  rw [List.filterMap_eq_map']

theorem length_run {ps : List Program} {names names' : Interner} {rs : List (Report × Program)}
    (h : run hash config ps names = .ok (rs, names')) : rs.length = ps.length := by
  induction ps generalizing names rs with
  | nil =>
    cases h
    rfl
  | cons p ps ih =>
    simp only [run, bind_eq_ok_iff] at h
    obtain ⟨⟨report, p₁, names₁⟩, -, ⟨rest, names₂⟩, hrest, h⟩ := h
    cases h
    rw [List.length_cons, List.length_cons, ih hrest]

/-- Processed in the order of its units, a batch is processed as it stands. -/
theorem runInOrder_finRange (ps : List Program) (names : Interner) :
    runInOrder hash config ps (List.finRange ps.length) names = run hash config ps names := by
  unfold runInOrder
  rw [List.map_get_finRange]
  cases hrun : run hash config ps names with
  | error f => rfl
  | ok res =>
    obtain ⟨rs, names'⟩ := res
    have hsame : sorted (List.finRange ps.length) rs = rs := by
      rw [← length_run hash config hrun]
      have hsorted := sorted_map (List.Perm.refl (List.finRange rs.length)) rs.get
      rwa [List.map_get_finRange] at hsorted
    simp only [bind, Except.bind, pure, Except.pure, hsame]

/-- In whatever order they are processed, the units come out as if each had been alone. -/
theorem runInOrder_eq {ps : List Program} {names : Interner}
    (hps : ∀ p ∈ ps, ∃ u, p.Stands names u)
    {order : List (Fin ps.length)} (horder : order.Perm (List.finRange ps.length)) :
    ∃ rs names', runInOrder hash config ps order names = .ok (rs, names') ∧
      rs.map (printed names') = ps.map (answer hash config names) ∧
      ∀ x, x ∈ names'.strings ↔ x ∈ names.strings ∨ ∃ p ∈ ps, Leaves hash config names p x := by
  -- The same units are processed.
  have hperm : (order.map ps.get).Perm ps := by
    have hmap := horder.map ps.get
    rwa [List.map_get_finRange] at hmap
  obtain ⟨rs, names', hrun, -, hprinted, hstrings⟩ :=
    run_eq hash config fun p hp => hps p (hperm.mem_iff.1 hp)
  refine ⟨sorted order rs, names', ?_, ?_, fun x => ?_⟩
  · simp only [runInOrder, hrun, bind, Except.bind, pure, Except.pure]
  · calc (sorted order rs).map (printed names')
        = sorted order (rs.map (printed names')) := by
          simp only [sorted, List.map_filterMap, List.getElem?_map]
      _ = sorted order (order.map (answer hash config names ∘ ps.get)) := by
          rw [hprinted, List.map_map]
      _ = ps.map (answer hash config names) := by
          rw [sorted_map horder, ← List.map_map, List.map_get_finRange]
  · rw [hstrings x]
    refine or_congr_right ⟨?_, ?_⟩
    · rintro ⟨p, hp, hx⟩
      exact ⟨p, hperm.mem_iff.1 hp, hx⟩
    · rintro ⟨p, hp, hx⟩
      exact ⟨p, hperm.mem_iff.2 hp, hx⟩

/-- Each unit of a loaded batch gets a report and a text, and these are the same in whatever order
the units are processed, and whatever further strings are in the table. Reports come in the order
of the units. The strings in the table at the end do not depend on the order either: they are those
that runs over the single units would leave. -/
theorem runInOrder_load (us : List Tree.CompilationUnit) (names : Interner)
    (hfits : ∀ p ∈ (load us names).1, p.store.arms.size ≤ absentRaw) :
    let ps := (load us names).1
    let loaded := (load us names).2
    (∀ p ∈ ps, ∃ a, answer hash config loaded p = .ok a) ∧
    (∀ order : List (Fin ps.length), order.Perm (List.finRange ps.length) →
      ∃ rs names', runInOrder hash config ps order loaded = .ok (rs, names') ∧
        rs.map (printed names') = ps.map (answer hash config loaded) ∧
        ∀ x, x ∈ names'.strings ↔ x ∈ loaded.strings ∨
          ∃ p ∈ ps, ∃ r, runOne hash config p loaded = .ok r ∧ x ∈ r.2.2.strings) ∧
    run hash config ps loaded = runInOrder hash config ps (List.finRange ps.length) loaded ∧
    (∀ p ∈ ps, ∀ extra,
      answer hash config (loaded.internAll extra) p = answer hash config loaded p) := by
  intro ps loaded
  have hps : ∀ p ∈ ps, ∃ u, p.Stands loaded u := load_stands hfits
  refine ⟨fun p hp => ?_, fun order horder => runInOrder_eq hash config hps horder,
    (runInOrder_finRange hash config ps loaded).symm, fun p hp extra => ?_⟩
  · obtain ⟨u, hu⟩ := hps p hp
    obtain ⟨a, ha⟩ := hu.exists_answer hash config
    exact ⟨a, ha loaded fun _ _ hn => hn⟩
  · obtain ⟨u, hu⟩ := hps p hp
    exact hu.answer_keeps hash config (loaded.keeps_internAll extra)

-- The last unit first. Both try the same names for their temporaries.
theorem runInOrder_load_reverse :
    let loaded := load [Rewrite.swapUnit, Rewrite.mixedUnit] {}
    ∃ rs names', runInOrder String.hash {} loaded.1 (List.finRange loaded.1.length).reverse
        loaded.2 = .ok (rs, names') ∧
      rs.map (printed names') = loaded.1.map (answer String.hash {} loaded.2) := by
  intro loaded
  have hfits : ∀ p ∈ loaded.1, p.store.arms.size ≤ absentRaw := by decide +kernel
  obtain ⟨-, hany, -⟩ :=
    runInOrder_load String.hash {} [Rewrite.swapUnit, Rewrite.mixedUnit] {} hfits
  obtain ⟨rs, names', hrun, hprinted, -⟩ := hany _ (List.reverse_perm _)
  exact ⟨rs, names', hrun, hprinted⟩

end Batch

end TupleAssign
