import Mathlib.Data.List.Basic
import TupleAssign.Proofs.Containment
/-!
# Walks in pre-order

A position in a tree is the list of the numbers of the parts that lead to it. In the lexicographic
order of positions a site comes before what is below it, and what is below a part before what is
below a later part. A walk is a listing of the sites in this order: of all sites, or of those that
are left when the sites below some are cut off (`Site.exists_listing`). Every position is listed
once, since the order is strict.
-/

namespace TupleAssign.Tree

namespace Site

/-! ## Positions -/

/-- The site at a position below a site. -/
def at? : Site → List Nat → Option Site
  | s, [] => some s
  | s, i :: p => s.parts[i]?.bind fun t => t.at? p

theorem at?_cons_eq_some_iff {root s : Site} {i : Nat} {p : List Nat} :
    root.at? (i :: p) = some s ↔ ∃ t, root.parts[i]? = some t ∧ t.at? p = some s := by
  rw [at?, Option.bind_eq_some_iff]

theorem contains_iff_exists_at? {root s : Site} : root.Contains s ↔ ∃ p, root.at? p = some s := by
  constructor
  · intro h
    induction h using Relation.ReflTransGen.head_induction_on with
    | refl => exact ⟨[], rfl⟩
    | head hpart _ ih =>
      obtain ⟨i, hi⟩ := List.mem_iff_getElem?.1 hpart
      obtain ⟨p, hp⟩ := ih
      exact ⟨i :: p, at?_cons_eq_some_iff.2 ⟨_, hi, hp⟩⟩
  · rintro ⟨p, hp⟩
    induction p generalizing root with
    | nil =>
      obtain rfl := Option.some.inj hp
      exact .refl
    | cons i p ih =>
      obtain ⟨t, ht, hp⟩ := at?_cons_eq_some_iff.1 hp
      exact .head (List.mem_of_getElem? ht) (ih hp)

variable {enter : Site → Bool}

/-- The site is at the position, and every site on the way to it is entered. -/
def Remains (enter : Site → Bool) (root : Site) (p : List Nat) (s : Site) : Prop :=
  root.at? p = some s ∧ ∀ q t, q <+: p → q ≠ p → root.at? q = some t → enter t = true

theorem remains_nil_iff {root s : Site} : root.Remains enter [] s ↔ s = root := by
  constructor
  · rintro ⟨h, -⟩
    exact (Option.some.inj h).symm
  · rintro rfl
    exact ⟨rfl, fun q t hq hne => absurd (List.prefix_nil.1 hq) hne⟩

theorem remains_cons_iff {root s : Site} {i : Nat} {p : List Nat} :
    root.Remains enter (i :: p) s ↔
      enter root = true ∧ ∃ t, root.parts[i]? = some t ∧ t.Remains enter p s := by
  constructor
  · rintro ⟨hs, habove⟩
    obtain ⟨t, ht, hs⟩ := at?_cons_eq_some_iff.1 hs
    refine ⟨habove [] root List.nil_prefix (List.cons_ne_nil i p).symm rfl, t, ht, hs, ?_⟩
    intro q x hq hne hx
    refine habove (i :: q) x ((List.prefix_cons_inj i).2 hq) (fun h => hne (List.cons.inj h).2) ?_
    exact at?_cons_eq_some_iff.2 ⟨t, ht, hx⟩
  · rintro ⟨hroot, t, ht, hs, habove⟩
    refine ⟨at?_cons_eq_some_iff.2 ⟨t, ht, hs⟩, fun q x hq hne hx => ?_⟩
    rcases List.prefix_cons_iff.1 hq with rfl | ⟨q, rfl, hbelow⟩
    · exact Option.some.inj hx ▸ hroot
    · obtain ⟨t', ht', hx⟩ := at?_cons_eq_some_iff.1 hx
      obtain rfl := Option.some.inj (ht.symm.trans ht')
      exact habove q x hbelow (fun h => hne (h ▸ rfl)) hx

/-- If every site is entered, none is left out. -/
theorem remains_iff_of_forall (h : ∀ s, enter s = true) {root s : Site} {p : List Nat} :
    root.Remains enter p s ↔ root.at? p = some s :=
  ⟨And.left, fun hs => ⟨hs, fun _ t _ _ _ => h t⟩⟩

/-! ## Listings -/

/-- The list has the sites that remain, each with its position, in the order of positions. -/
structure IsListing (enter : Site → Bool) (root : Site) (l : List (List Nat × Site)) : Prop where
  sorted : (l.map Prod.fst).Pairwise (· < ·)
  mem_iff : ∀ p s, (p, s) ∈ l ↔ root.Remains enter p s

/-- The listing of a part, seen from the whole. -/
def below (i : Nat) (l : List (List Nat × Site)) : List (List Nat × Site) :=
  l.map fun x => (i :: x.1, x.2)

theorem mem_below_iff {i : Nat} {l : List (List Nat × Site)} {p : List Nat} {s : Site} :
    (p, s) ∈ below i l ↔ ∃ q, p = i :: q ∧ (q, s) ∈ l := by
  constructor
  · intro h
    obtain ⟨⟨q, t⟩, hmem, heq⟩ := List.mem_map.1 h
    cases heq
    exact ⟨q, rfl, hmem⟩
  · rintro ⟨q, rfl, hmem⟩
    exact List.mem_map.2 ⟨(q, s), hmem, rfl⟩

/-- The listings of the parts one behind the other. -/
def belowAll (listing : Site → List (List Nat × Site)) (ts : List Site) :
    List (List Nat × Site) :=
  ts.zipIdx.flatMap fun x => below x.2 (listing x.1)

theorem mem_belowAll_iff {listing : Site → List (List Nat × Site)} {ts : List Site} {p : List Nat}
    {s : Site} : (p, s) ∈ belowAll listing ts ↔
      ∃ i q t, p = i :: q ∧ ts[i]? = some t ∧ (q, s) ∈ listing t := by
  simp only [belowAll, List.mem_flatMap, mem_below_iff, Prod.exists, List.mem_zipIdx_iff_getElem?]
  constructor
  · rintro ⟨t, i, ht, q, rfl, hmem⟩
    exact ⟨i, q, t, rfl, ht, hmem⟩
  · rintro ⟨i, q, t, rfl, ht, hmem⟩
    exact ⟨t, i, ht, q, rfl, hmem⟩

theorem pairwise_zipIdx (ts : List Site) : ts.zipIdx.Pairwise fun x y => x.2 < y.2 := by
  rw [← List.pairwise_map (f := Prod.snd) (R := (· < ·)), List.zipIdx_map_snd]
  exact List.pairwise_lt_range'

theorem sorted_belowAll {listing : Site → List (List Nat × Site)} {ts : List Site}
    (h : ∀ t ∈ ts, ((listing t).map Prod.fst).Pairwise (· < ·)) :
    ((belowAll listing ts).map Prod.fst).Pairwise (· < ·) := by
  rw [belowAll, List.map_flatMap, List.pairwise_flatMap]
  constructor
  · -- Below one part the first number is the same.
    rintro ⟨t, i⟩ hmem
    have ht : t ∈ ts := List.mem_of_getElem? (List.mem_zipIdx_iff_getElem?.1 hmem)
    have hsorted := h t ht
    simp only [below, List.map_map, List.pairwise_map] at hsorted ⊢
    exact hsorted.imp fun hlt => List.cons_lt_cons_iff.2 (.inr ⟨rfl, hlt⟩)
  · -- Between two parts it decides.
    have hfirst : ∀ i l p, p ∈ (below i l).map Prod.fst → ∃ q, p = i :: q := by
      intro i l p hp
      obtain ⟨⟨_, s⟩, hmem, rfl⟩ := List.mem_map.1 hp
      obtain ⟨q, rfl, -⟩ := mem_below_iff.1 hmem
      exact ⟨q, rfl⟩
    refine (pairwise_zipIdx ts).imp fun {x y} hlt p hp q hq => ?_
    obtain ⟨p, rfl⟩ := hfirst _ _ _ hp
    obtain ⟨q, rfl⟩ := hfirst _ _ _ hq
    exact List.cons_lt_cons_iff.2 (.inl hlt)

theorem belowAll_sites {listing : Site → List (List Nat × Site)} {ts : List Site}
    (h : ∀ t ∈ ts, t.visits enter = (listing t).map Prod.snd) :
    (belowAll listing ts).map Prod.snd = ts.flatMap (visits enter) := by
  calc (belowAll listing ts).map Prod.snd
      = ts.zipIdx.flatMap fun x => (listing x.1).map Prod.snd := by
        simp only [belowAll, List.map_flatMap, below, List.map_map]
        rfl
    _ = (ts.zipIdx.map Prod.fst).flatMap fun t => (listing t).map Prod.snd := by
        rw [List.flatMap_map]
    _ = ts.flatMap (visits enter) := by
        rw [List.zipIdx_map_fst]
        exact List.flatMap_congr fun t ht => (h t ht).symm

theorem remains_iff {root s : Site} {p : List Nat} :
    root.Remains enter p s ↔ (p = [] ∧ s = root) ∨
      enter root = true ∧ ∃ i q t, p = i :: q ∧ root.parts[i]? = some t ∧ t.Remains enter q s := by
  cases p with
  | nil => simp [remains_nil_iff]
  | cons i q =>
    rw [remains_cons_iff]
    constructor
    · rintro ⟨hroot, t, ht, hs⟩
      exact .inr ⟨hroot, i, q, t, rfl, ht, hs⟩
    · rintro (⟨h, -⟩ | ⟨hroot, j, q', t, h, ht, hs⟩)
      · cases h
      · cases h
        exact ⟨hroot, t, ht, hs⟩

/-- A walk lists the sites that remain. -/
theorem exists_listing (enter : Site → Bool) (root : Site) :
    ∃ l, root.IsListing enter l ∧ root.visits enter = l.map Prod.snd := by
  induction root using parts_induct with
  | step root ih =>
    choose! listing hlisting using ih
    refine ⟨([], root) :: if enter root then belowAll listing root.parts else [], ⟨?_, ?_⟩, ?_⟩
    · rw [List.map_cons, List.pairwise_cons]
      constructor
      · intro p hp
        split at hp
        · obtain ⟨⟨p, s⟩, hmem, rfl⟩ := List.mem_map.1 hp
          obtain ⟨i, q, -, rfl, -⟩ := mem_belowAll_iff.1 hmem
          exact List.nil_lt_cons i q
        · cases hp
      · split
        · exact sorted_belowAll fun t ht => (hlisting t ht).1.sorted
        · exact .nil
    · intro p s
      rw [remains_iff, List.mem_cons, Prod.mk.injEq]
      refine or_congr Iff.rfl ?_
      split
      · next hroot =>
        rw [mem_belowAll_iff, and_iff_right hroot]
        refine exists_congr fun i => exists_congr fun q => exists_congr fun t => ?_
        refine and_congr_right fun _ => and_congr_right fun ht => ?_
        exact (hlisting t (List.mem_of_getElem? ht)).1.mem_iff q s
      · next hroot => simp [hroot]
    · rw [visits_eq, before, List.map_cons]
      split
      · rw [belowAll_sites fun t ht => (hlisting t ht).2]
      · rfl

end Site

end TupleAssign.Tree
