import TupleAssign.Proofs.Assembly
import TupleAssign.Proofs.Refinement
/-!
# Exclusive ownership

Runs of the pass keep a program well-formed. A value that is moved into an assignment is still
referred to by the call it came from, and a replaced statement by the list it stood in; but nothing
of this is in reach any more. `desugarEach_wellFormed` says so for every well-formed program, also if
some of its names were never entered in the table.
-/

namespace TupleAssign

open Store Desugar

namespace Program

variable {p : Program}

/-- The second node is the first one or inside it. -/
def Below (p : Program) (n m : NodeRef) : Prop :=
  Relation.ReflTransGen p.Contains (.node n) (.node m)

/-- A type that stands in a slot of its own, not inside another type. -/
def TypeSlot (p : Program) (h : Holder) (i : Nat) (t : TypeId) : Prop :=
  p.Reachable h ∧ p.Holds h i t.ref ∧ ∀ t' : TypeId, h ≠ .node t'.ref

theorem Reachable.contains {h h' : Holder} (hr : p.Reachable h)
    (hc : Relation.ReflTransGen p.Contains h h') : p.Reachable h' := by
  induction hc with
  | refl => exact hr
  | tail _ hstep ih =>
    obtain ⟨i, n, hn, rfl⟩ := hstep
    exact .slot ih hn

/-- What is inside a type is a type. -/
theorem Contains.of_type {t : TypeId} {h : Holder}
    (hc : Relation.ReflTransGen p.Contains (.node t.ref) h) : ∃ t' : TypeId, h = .node t'.ref := by
  induction hc with
  | refl => exact ⟨t, rfl⟩
  | tail _ hstep ih =>
    obtain ⟨t', rfl⟩ := ih
    obtain ⟨i, n, ⟨ns, hns, hn⟩, rfl⟩ := hstep
    obtain ⟨node, -, hslots⟩ := slots_type_iff.1 hns
    have hmem := List.mem_of_getElem? hn
    cases node with
    | primitive p =>
      simp only [typeSlots, ok_pure_iff] at hslots
      subst hslots
      simp at hmem
    | named n args =>
      simp only [typeSlots, bind_eq_ok_iff, ok_pure_iff] at hslots
      obtain ⟨ids, -, rfl⟩ := hslots
      obtain ⟨id, -, rfl⟩ := List.mem_map.1 hmem
      exact ⟨id, rfl⟩
    | array e =>
      simp only [typeSlots, ok_pure_iff] at hslots
      subst hslots
      exact ⟨e, by rw [List.mem_singleton.1 hmem]⟩

/-- Of two holders around a node, one is around the other. -/
theorem WellFormed.nested (hp : p.WellFormed) {h h' k : Holder} (hr : p.Reachable h)
    (hr' : p.Reachable h') (hc : Relation.ReflTransGen p.Contains h k)
    (hc' : Relation.ReflTransGen p.Contains h' k) :
    Relation.ReflTransGen p.Contains h h' ∨ Relation.ReflTransGen p.Contains h' h := by
  induction hc with
  | refl => exact .inr hc'
  | @tail m k hm hstep ih =>
    rcases Relation.ReflTransGen.cases_tail hc' with rfl | ⟨m', hm', hstep'⟩
    · exact .inl (hm.tail hstep)
    · obtain ⟨i, n, hn, rfl⟩ := hstep
      obtain ⟨i', n', hn', heq⟩ := hstep'
      cases heq
      obtain ⟨rfl, -⟩ := hp.exclusive m m' i i' n (hr.contains hm) (hr'.contains hm') hn hn'
      exact ih hm'

/-- A node in reach is in one slot, and in no other. -/
theorem WellFormed.existsUnique_slot (hp : p.WellFormed) {n : NodeRef}
    (hn : p.Reachable (.node n)) :
    ∃! slot : Holder × Nat, p.Reachable slot.1 ∧ p.Holds slot.1 slot.2 n := by
  cases hn with
  | @slot h i _ hr hslot =>
    refine ⟨(h, i), ⟨hr, hslot⟩, fun slot' ⟨hr', hslot'⟩ => ?_⟩
    obtain ⟨rfl, rfl⟩ := hp.exclusive h slot'.1 i slot'.2 n hr hr' hslot hslot'
    rfl

/-- Types in different slots have no node in common. -/
theorem WellFormed.types_apart (hp : p.WellFormed) {h h' : Holder} {i i' : Nat} {t t' : TypeId}
    (ht : p.TypeSlot h i t) (ht' : p.TypeSlot h' i' t') (hne : (h, i) ≠ (h', i')) (n : NodeRef) :
    ¬ (p.Below t.ref n ∧ p.Below t'.ref n) := by
  rintro ⟨hn, hn'⟩
  -- If one type is inside the other, its slot is that of a type.
  have hinside : ∀ {h h' i i'} {t t' : TypeId}, p.TypeSlot h i t → p.TypeSlot h' i' t' →
      (h, i) ≠ (h', i') → ¬ Relation.ReflTransGen p.Contains (.node t.ref) (.node t'.ref) := by
    rintro h h' i i' t t' ⟨hr, hslot, -⟩ ⟨hr', hslot', hnot⟩ hne hc
    rcases Relation.ReflTransGen.cases_tail hc with heq | ⟨m, hm, j, n, hj, heq⟩
    · obtain rfl := NodeId.ref_inj.1 (Holder.node.inj heq)
      obtain ⟨rfl, rfl⟩ := hp.exclusive h h' i i' _ hr hr' hslot hslot'
      exact hne rfl
    · cases heq
      obtain ⟨s, rfl⟩ := Contains.of_type hm
      have hreach : p.Reachable (.node s.ref) := Reachable.contains (.slot hr hslot) hm
      obtain ⟨rfl, -⟩ := hp.exclusive h' _ i' j _ hr' hreach hslot' hj
      exact hnot s rfl
  rcases hp.nested (.slot ht.1 ht.2.1) (.slot ht'.1 ht'.2.1) hn hn' with hc | hc
  · exact hinside ht ht' hne hc
  · exact hinside ht' ht (Ne.symm hne) hc

/-- The imports of a unit hold no node. -/
theorem WellFormed.setImports (hp : p.WellFormed) (imports : List Node.Import) :
    Program.WellFormed { p with unit := { p.unit with imports } } := by
  have hreach : ∀ h, Program.Reachable { p with unit := { p.unit with imports } } h →
      p.Reachable h := by
    intro h hr
    induction hr with
    | unit => exact .unit
    | slot _ hslot ih => exact .slot ih hslot
  exact {
    inBounds := fun h hr => hp.inBounds h (hreach h hr)
    acyclic := fun h hr => hp.acyclic h (hreach h hr)
    exclusive := fun h h' i i' n hr hr' =>
      hp.exclusive h h' i i' n (hreach h hr) (hreach h' hr') }

/-- A well-formed program holds a tree of names. -/
theorem WellFormed.exists_verbatim (hp : p.WellFormed) :
    ∃ v fp, UnitAt p Verbatim v fp ∧ fp.Nodup :=
  hp.exists_unitAt fun n => ⟨n, rfl⟩

theorem WellFormed.sites_ok (hp : p.WellFormed) : ∃ ns, p.sites = .ok ns := by
  obtain ⟨v, fp, hunit, hnodup⟩ := hp.exists_verbatim
  have hcomes : Comes p.store Verbatim (Tree.sites v) p.sites fp :=
    hunit.visits hnodup fun _ _ _ _ _ => rfl
  obtain ⟨ns, hns, -⟩ := hcomes
  exact ⟨ns, hns⟩

theorem WellFormed.removeDeadImports_ok (hp : p.WellFormed) (names : Interner) (m : Marker)
    (r : Resolver Name) (used : List Form) :
    ∃ removed p', p.removeDeadImports names m r used = .ok (removed, p') ∧ p'.WellFormed := by
  obtain ⟨ns, hns⟩ := hp.sites_ok
  cases used with
  | nil => exact ⟨[], p, rfl, hp⟩
  | cons form forms =>
    simp only [Program.removeDeadImports, Program.usage, hns]
    exact ⟨_, _, rfl, hp.setImports _⟩

end Program

/-- One run succeeds on a well-formed program and leaves it well-formed. -/
theorem Program.WellFormed.desugar_ok {p : Program} (hp : p.WellFormed) (config : DesugarConfig)
    (names : Interner) :
    ∃ o p' names', desugar config p names = .ok (o, p', names') ∧ p'.WellFormed := by
  obtain ⟨v, fp, hunit, hnodup⟩ := hp.exists_verbatim
  obtain ⟨s, fp', hwalk, -, -, hunit', hnodup'⟩ := walk_eq config names hunit hnodup
  have hs : s.program.WellFormed := hunit'.wellFormed hnodup'
  obtain ⟨removed, p', hremove, hp'⟩ := hs.removeDeadImports_ok s.names config.marker
    (Desugar.resolver config.marker p.unit names).1 s.used
  have hrun : ∃ o, desugar config p names = .ok (o, p', s.names) := by
    simp only [desugar, hwalk, hremove, bind, Except.bind, pure, Except.pure]
    exact ⟨_, rfl⟩
  obtain ⟨o, hrun⟩ := hrun
  exact ⟨o, p', s.names, hrun, hp'⟩

/-- Every run of a sequence succeeds on a well-formed program and leaves it well-formed: each node in
reach is in exactly one slot, so that a moved value occurs once and no statement is in two lists; and
the type of a temporary shares no node with the declaration it was copied from, nor any two types in
different slots. -/
theorem desugarEach_wellFormed (configs : List DesugarConfig) (p : Program) (names : Interner)
    (hp : p.WellFormed) :
    ∃ rs, desugarEach configs p names = .ok rs ∧ rs.length = configs.length ∧
      ∀ r ∈ rs, r.2.1.WellFormed ∧
        (∀ n, r.2.1.Reachable (.node n) →
          ∃! slot : Holder × Nat, r.2.1.Reachable slot.1 ∧ r.2.1.Holds slot.1 slot.2 n) ∧
        ∀ h h' i i' t t', r.2.1.TypeSlot h i t → r.2.1.TypeSlot h' i' t' → (h, i) ≠ (h', i') →
          ∀ n, ¬ (r.2.1.Below t.ref n ∧ r.2.1.Below t'.ref n) := by
  induction configs generalizing p names with
  | nil => exact ⟨[], rfl, rfl, by simp⟩
  | cons config configs ih =>
    obtain ⟨o, p', names', hrun, hp'⟩ := hp.desugar_ok config names
    obtain ⟨rs, hruns, hlen, hrs⟩ := ih p' names' hp'
    refine ⟨(o, p', names') :: rs, ?_, by simp [hlen], ?_⟩
    · simp only [desugarEach, hrun, hruns, bind, Except.bind, pure, Except.pure]
    · intro r hr
      rcases List.mem_cons.1 hr with rfl | hr
      · exact ⟨hp', fun n hn => hp'.existsUnique_slot hn,
          fun h h' i i' t t' ht ht' hne => hp'.types_apart ht ht' hne⟩
      · exact hrs r hr

theorem desugarEach_wellFormed_swapUnit :
    ∃ rs, desugarEach [{}, { stem := "t" }] (Program.load Rewrite.swapUnit {}).1
        (Program.load Rewrite.swapUnit {}).2 = .ok rs ∧ rs.length = 2 ∧
      ∀ r ∈ rs, r.2.1.WellFormed := by
  obtain ⟨fp, hunit, hnodup⟩ := Program.load_unitAt Rewrite.swapUnit {} (by decide +kernel)
  obtain ⟨rs, hrun, hlen, hrs⟩ := desugarEach_wellFormed [{}, { stem := "t" }] _
    (Program.load Rewrite.swapUnit {}).2 (hunit.wellFormed hnodup)
  exact ⟨rs, hrun, hlen, fun r hr => (hrs r hr).1⟩

end TupleAssign
