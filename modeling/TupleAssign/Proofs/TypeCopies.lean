import Mathlib.Algebra.Order.BigOperators.Group.List
import Mathlib.Algebra.Order.Group.Nat
import TupleAssign.Proofs.Assembly
import TupleAssign.Proofs.Naming
import TupleAssign.Proofs.Sharing
import TupleAssign.Proofs.Spelled
/-!
# Copies and comparisons of types

A type is a graph of nodes that may share parts. If its ids and slices are in bounds and no part
contains itself, it unfolds to a tree: a path downwards meets no node twice, so the levels that
reading, copying and comparing are given are enough (`Store.Unfoldable.exists_readType`). Two types
compare equal when their trees are equal, and a copy has the tree of its original, in nodes of its
own (`Store.typeTrees_copied_and_compared`).

Comparing looks at names, reading at what they stand for. A table may give two names one string, so
trees are the same when they read alike under every table.
-/

namespace TupleAssign

/-! ## Lists -/

theorem Slice.length_of_read {s : NodeSort} {α : Type} {r : Slice s} {table : Array α} {l : List α}
    (h : r.read table = .ok l) : l.length = r.len := by
  unfold Slice.read Slice.stop at h
  split at h
  · cases h
    simp only [Array.length_toList, Array.size_extract]
    omega
  · cases h

theorem exists_mapM {ε α β : Type} {f : α → Except ε β} {as : List α}
    (h : ∀ a ∈ as, ∃ b, f a = .ok b) : ∃ bs, as.mapM f = .ok bs := by
  induction as with
  | nil => exact ⟨[], rfl⟩
  | cons a as ih =>
    obtain ⟨b, hb⟩ := h a List.mem_cons_self
    obtain ⟨bs, hbs⟩ := ih fun a ha => h a (List.mem_cons_of_mem _ ha)
    exact ⟨b :: bs, mapM_cons_eq_ok_iff.2 ⟨b, bs, hb, hbs, rfl⟩⟩

theorem Extends.mapM_forall₂ {ε α β : Type} {f : α → Except ε β} {as as' : List α}
    (h : List.Forall₂ (fun a a' => Extends (f a) (f a')) as as') :
    Extends (as.mapM f) (as'.mapM f) := by
  induction h with
  | nil => exact .refl _
  | cons ha _ ih =>
    rw [List.mapM_cons, List.mapM_cons]
    exact ha.bind fun _ => ih.ret _

/-- Entries with the same results are related, if any two such entries are. -/
theorem forall₂_of_mapM {ε α β : Type} {f : α → Except ε β} {R : α → α → Prop} {as as' : List α}
    {bs : List β} (hR : ∀ a a', ∀ b ∈ bs, f a = .ok b → f a' = .ok b → R a a')
    (h : as.mapM f = .ok bs) (h' : as'.mapM f = .ok bs) : List.Forall₂ R as as' := by
  induction as generalizing as' bs with
  | nil =>
    cases h
    rw [List.eq_nil_of_length_eq_zero (length_of_mapM h').symm]
    exact .nil
  | cons a as ih =>
    obtain ⟨b, bs, hb, hbs, rfl⟩ := mapM_cons_eq_ok_iff.1 h
    cases as' with
    | nil => cases h'
    | cons a' as' =>
      obtain ⟨_, _, hb', hbs', heq⟩ := mapM_cons_eq_ok_iff.1 h'
      cases heq
      obtain ⟨hfirst, hrest⟩ := List.forall_mem_cons.1 fun b hb a a' => hR a a' b hb
      exact .cons (hfirst a a' hb hb') (ih (fun a a' b hb => hrest b hb a a') hbs hbs')

theorem allM_eq_true_iff {ε α : Type} {p : α → Except ε Bool} {as : List α} :
    as.allM p = .ok true ↔ ∀ a ∈ as, p a = .ok true := by
  induction as with
  | nil => simp [List.allM, pure, Except.pure]
  | cons a as ih =>
    rw [List.allM, bind_eq_ok_iff, List.forall_mem_cons, ← ih]
    constructor
    · rintro ⟨r, hr, h⟩
      cases r with
      | false => cases h
      | true => exact ⟨hr, h⟩
    · rintro ⟨hr, h⟩
      exact ⟨true, hr, h⟩

theorem exists_allM {ε α : Type} {p : α → Except ε Bool} {as : List α}
    (h : ∀ a ∈ as, ∃ r, p a = .ok r) : ∃ r, as.allM p = .ok r := by
  induction as with
  | nil => exact ⟨true, rfl⟩
  | cons a as ih =>
    obtain ⟨r, hr⟩ := h a List.mem_cons_self
    cases r with
    | false => exact ⟨false, bind_eq_ok_iff.2 ⟨false, hr, rfl⟩⟩
    | true =>
      obtain ⟨r, hrest⟩ := ih fun a ha => h a (List.mem_cons_of_mem _ ha)
      exact ⟨r, bind_eq_ok_iff.2 ⟨true, hr, hrest⟩⟩

namespace Store

/-! ## Types that unfold to a tree -/

/-- The second type stands directly in the first. -/
def HasPart (st : Store) (whole part : TypeId) : Prop :=
  ∃ ns, st.slots whole.ref = .ok ns ∧ part.ref ∈ ns

/-- Ids and slices in the type are in bounds, and no part of it contains itself. Parts may be
shared. -/
structure Unfoldable (st : Store) (id : TypeId) : Prop where
  inBounds : ∀ part, Relation.ReflTransGen st.HasPart id part → ∃ ns, st.slots part.ref = .ok ns
  acyclic : ∀ part, Relation.ReflTransGen st.HasPart id part →
    ¬ Relation.TransGen st.HasPart part part

variable {ν : Type} {st : Store} {spell : Name → ν}

namespace Unfoldable

variable {id : TypeId}

theorem part (h : st.Unfoldable id) {part : TypeId} (hp : st.HasPart id part) :
    st.Unfoldable part :=
  ⟨fun x hx => h.inBounds x (.head hp hx), fun x hx => h.acyclic x (.head hp hx)⟩

theorem length_le_of_nodup {path : List TypeId} {size : Nat} (hnodup : path.Nodup)
    (h : ∀ a ∈ path, a.index < size) : path.length ≤ size := by
  have hsub : path.map NodeId.index ⊆ List.range size := by
    intro i hi
    obtain ⟨a, ha, rfl⟩ := List.mem_map.1 hi
    exact List.mem_range.2 (h a ha)
  have hinj : Function.Injective (NodeId.index (s := .type)) := by
    rintro ⟨i⟩ ⟨j⟩ hij
    exact congrArg NodeId.mk hij
  have hlen := (hnodup.map hinj).length_le_of_subset hsub
  rwa [List.length_map, List.length_range] at hlen

/-- Below the nodes of a path, as many levels are enough as the table has nodes off the path. -/
theorem exists_readTypeTo {levels : Nat} {path : List TypeId} (h : st.Unfoldable id)
    (hnodup : path.Nodup)
    (hpath : ∀ a ∈ path, a.index < st.types.size ∧ Relation.TransGen st.HasPart a id)
    (hlevels : st.types.size < levels + path.length) :
    ∃ t, st.readTypeTo spell levels id = .ok t := by
  induction levels generalizing id path with
  | zero =>
    -- No path is longer than the table.
    have hlen := length_le_of_nodup hnodup fun a ha => (hpath a ha).1
    omega
  | succ levels ih =>
    obtain ⟨ns, hns⟩ := h.inBounds id .refl
    obtain ⟨node, hnode, hslots⟩ := slots_type_iff.1 hns
    have hnew : id ∉ path := fun hmem => h.acyclic id .refl (hpath id hmem).2
    have hpart : ∀ part : TypeId, part.ref ∈ ns → ∃ t, st.readTypeTo spell levels part = .ok t := by
      intro part hmem
      have hp : st.HasPart id part := ⟨ns, hns, hmem⟩
      refine ih (h.part hp) (List.nodup_cons.2 ⟨hnew, hnodup⟩) ?_ ?_
      · intro a ha
        rcases List.mem_cons.1 ha with rfl | ha
        · exact ⟨(Array.getElem?_eq_some_iff.1 hnode).1, .single hp⟩
        · exact ⟨(hpath a ha).1, (hpath a ha).2.tail hp⟩
      · rw [List.length_cons]
        omega
    have hread := type_eq_ok_iff.2 hnode
    cases node with
    | primitive p => exact ⟨_, readTypeTo_eq_ok_iff.2 (.inl ⟨p, hread, rfl⟩)⟩
    | named n args =>
      simp only [typeSlots, bind_eq_ok_iff, ok_pure_iff] at hslots
      obtain ⟨ids, hids, rfl⟩ := hslots
      obtain ⟨ts, hts⟩ := exists_mapM fun a ha => hpart a (List.mem_map_of_mem ha)
      exact ⟨_, readTypeTo_eq_ok_iff.2 (.inr (.inl ⟨n, args, ids, ts, hread, hids, hts, rfl⟩))⟩
    | array elem =>
      cases hslots
      obtain ⟨t, ht⟩ := hpart elem List.mem_cons_self
      exact ⟨_, readTypeTo_eq_ok_iff.2 (.inr (.inr ⟨elem, t, hread, ht, rfl⟩))⟩

theorem exists_readType (h : st.Unfoldable id) (spell : Name → ν) :
    ∃ t, st.readType spell id = .ok t :=
  h.exists_readTypeTo .nil (by simp) (by simp)

end Unfoldable

/-! ## Comparing -/

/-- What it takes for two types to compare equal: the same kind of node, and equal parts. -/
theorem typesEqualTo_eq_true_iff {levels : Nat} {a b : TypeId} :
    st.typesEqualTo (levels + 1) a b = .ok true ↔
      (∃ p, st.type a = .ok (.primitive p) ∧ st.type b = .ok (.primitive p)) ∨
      (∃ n as bs xs ys, st.type a = .ok (.named n as) ∧ st.type b = .ok (.named n bs) ∧
        st.typeList as = .ok xs ∧ st.typeList bs = .ok ys ∧
        List.Forall₂ (fun x y => st.typesEqualTo levels x y = .ok true) xs ys) ∨
      ∃ x y, st.type a = .ok (.array x) ∧ st.type b = .ok (.array y) ∧
        st.typesEqualTo levels x y = .ok true := by
  constructor
  · intro h
    rw [typesEqualTo] at h
    obtain ⟨node, hnode, h⟩ := bind_eq_ok_iff.1 h
    obtain ⟨node', hnode', h⟩ := bind_eq_ok_iff.1 h
    cases node with
    | primitive p =>
      cases node' with
      | primitive q =>
        obtain rfl : p = q := eq_of_beq (Except.ok.inj h)
        exact .inl ⟨p, hnode, hnode'⟩
      | named | array => cases h
    | named n as =>
      cases node' with
      | named m bs =>
        dsimp only at h
        split at h
        · rename_i hsame
          obtain ⟨rfl, hlen⟩ := hsame
          obtain ⟨xs, hxs, h⟩ := bind_eq_ok_iff.1 h
          obtain ⟨ys, hys, h⟩ := bind_eq_ok_iff.1 h
          refine .inr (.inl ⟨n, as, bs, xs, ys, hnode, hnode', hxs, hys, ?_⟩)
          rw [List.forall₂_iff_zip]
          refine ⟨?_, fun hmem => allM_eq_true_iff.1 h _ hmem⟩
          rw [Slice.length_of_read hxs, Slice.length_of_read hys, hlen]
        · cases h
      | primitive | array => cases h
    | array x =>
      cases node' with
      | array y => exact .inr (.inr ⟨x, y, hnode, hnode', h⟩)
      | primitive | named => cases h
  · rintro (⟨p, ha, hb⟩ | ⟨n, as, bs, xs, ys, ha, hb, hxs, hys, hparts⟩ | ⟨x, y, ha, hb, h⟩)
    all_goals
      rw [typesEqualTo]
      refine bind_eq_ok_iff.2 ⟨_, ha, bind_eq_ok_iff.2 ⟨_, hb, ?_⟩⟩
    · simp [pure, Except.pure]
    · rw [List.forall₂_iff_zip] at hparts
      have hlen : as.len = bs.len := by
        rw [← Slice.length_of_read hxs, ← Slice.length_of_read hys, hparts.1]
      dsimp only
      rw [if_pos ⟨rfl, hlen⟩]
      refine bind_eq_ok_iff.2 ⟨xs, hxs, bind_eq_ok_iff.2 ⟨ys, hys, ?_⟩⟩
      exact allM_eq_true_iff.2 fun p hp => hparts.2 hp
    · exact h

/-- Types that compare equal read alike. -/
theorem readTypeTo_of_typesEqualTo {levels : Nat} {a b : TypeId}
    (h : st.typesEqualTo levels a b = .ok true) :
    Extends (st.readTypeTo spell levels a) (st.readTypeTo spell levels b) := by
  induction levels generalizing a b with
  | zero => cases h
  | succ levels ih =>
    rw [readTypeTo, readTypeTo]
    rcases typesEqualTo_eq_true_iff.1 h with ⟨p, ha, hb⟩ |
      ⟨n, as, bs, xs, ys, ha, hb, hxs, hys, hparts⟩ | ⟨x, y, ha, hb, hpart⟩
    · rw [ha, hb]
      exact .refl _
    · rw [ha, hb]
      dsimp only [bind, Except.bind]
      rw [hxs, hys]
      exact (Extends.mapM_forall₂ (hparts.imp fun _ _ hxy => ih hxy)).ret _
    · rw [ha, hb]
      exact (ih hpart).ret _

end Store

/-- The table gives different strings to the different names of stored types. -/
def Interner.Separates (names : Interner) (st : Store) : Prop :=
  ∀ a b n m as bs, st.type a = .ok (.named n as) → st.type b = .ok (.named m bs) →
    names.lookup n = names.lookup m → n = m

namespace Store

variable {ν : Type} {st : Store} {names : Interner} {spell : Name → ν}

/-- Types that read alike under a table that tells their names apart compare equal. -/
theorem typesEqualTo_of_readTypeTo {levels : Nat} {a b : TypeId} {t : Tree.Ty}
    (hnames : ∀ a b n m as bs, st.type a = .ok (.named n as) → st.type b = .ok (.named m bs) →
      names.lookup n = names.lookup m → names.lookup n ∈ t.names → n = m)
    (ha : st.readTypeTo names.lookup levels a = .ok t)
    (hb : st.readTypeTo names.lookup levels b = .ok t) :
    st.typesEqualTo levels a b = .ok true := by
  induction levels generalizing a b t with
  | zero => cases ha
  | succ levels ih =>
    rw [typesEqualTo_eq_true_iff]
    rcases readTypeTo_eq_ok_iff.1 ha with ⟨p, hnode, rfl⟩ | ⟨n, as, xs, ts, hnode, hxs, hts, rfl⟩ |
      ⟨x, e, hnode, hx, rfl⟩
    · rcases readTypeTo_eq_ok_iff.1 hb with ⟨q, hnode', heq⟩ | ⟨_, _, _, _, _, _, _, heq⟩ |
        ⟨_, _, _, _, heq⟩
      · cases heq
        exact .inl ⟨p, hnode, hnode'⟩
      · cases heq
      · cases heq
    · rcases readTypeTo_eq_ok_iff.1 hb with ⟨_, _, heq⟩ | ⟨m, bs, ys, _, hnode', hys, hts', heq⟩ |
        ⟨_, _, _, _, heq⟩
      · cases heq
      · obtain ⟨hname, rfl⟩ := Tree.Ty.named.inj heq
        obtain rfl := hnames a b n m as bs hnode hnode' hname List.mem_cons_self
        refine .inr (.inl ⟨n, as, bs, xs, ys, hnode, hnode', hxs, hys, ?_⟩)
        refine forall₂_of_mapM (fun x y t ht hx hy => ih ?_ hx hy) hts hts'
        intro a b n m as bs ha hb hname hmem
        refine hnames a b n m as bs ha hb hname ?_
        exact List.mem_cons_of_mem _ (Tree.Ty.names_subset ht hmem)
      · cases heq
    · rcases readTypeTo_eq_ok_iff.1 hb with ⟨_, _, heq⟩ | ⟨_, _, _, _, _, _, _, heq⟩ |
        ⟨y, _, hnode', hy, heq⟩
      · cases heq
      · cases heq
      · cases heq
        exact .inr (.inr ⟨x, y, hnode, hnode', ih (t := e) hnames hx hy⟩)

/-- Types that can be read can be compared. -/
theorem exists_typesEqualTo {levels : Nat} {a b : TypeId} {t t' : Tree.Ty ν}
    (ha : st.readTypeTo spell levels a = .ok t) (hb : st.readTypeTo spell levels b = .ok t') :
    ∃ same, st.typesEqualTo levels a b = .ok same := by
  induction levels generalizing a b t t' with
  | zero => cases ha
  | succ levels ih =>
    rcases readTypeTo_eq_ok_iff.1 ha with ⟨p, hnode, -⟩ | ⟨n, as, xs, ts, hnode, hxs, hts, -⟩ |
      ⟨x, e, hnode, hx, -⟩ <;>
    rcases readTypeTo_eq_ok_iff.1 hb with ⟨q, hnode', -⟩ | ⟨m, bs, ys, ts', hnode', hys, hts', -⟩ |
      ⟨y, e', hnode', hy, -⟩ <;>
    rw [typesEqualTo, hnode, hnode']
    -- Only two named types or two arrays are looked into.
    case inr.inl.inr.inl =>
      by_cases hsame : n = m ∧ as.len = bs.len
      · have hparts : ∃ same,
            (xs.zip ys).allM (fun p => st.typesEqualTo levels p.1 p.2) = .ok same := by
          refine exists_allM fun p hp => ?_
          obtain ⟨u, -, hu⟩ := exists_of_mapM_eq hts p.1 (List.of_mem_zip hp).1
          obtain ⟨v, -, hv⟩ := exists_of_mapM_eq hts' p.2 (List.of_mem_zip hp).2
          exact ih hu hv
        obtain ⟨same, hparts⟩ := hparts
        refine ⟨same, ?_⟩
        dsimp only [bind, Except.bind]
        rw [if_pos hsame, hxs, hys]
        exact hparts
      · refine ⟨false, ?_⟩
        dsimp only [bind, Except.bind]
        rw [if_neg hsame]
        rfl
    case inr.inr.inr.inr => exact ih hx hy
    all_goals exact ⟨_, rfl⟩

/-- Comparing is given no fewer levels than reading. -/
theorem readTypeTo_pairs {id : TypeId} {t : Tree.Ty ν} (h : st.readType spell id = .ok t) :
    st.readTypeTo spell (st.types.size * st.types.size + 1) id = .ok t :=
  (Grows.refl st nothing).readTypeTo (Nat.succ_le_succ (Nat.le_mul_self st.types.size)) id t h

end Store

/-! ## Tables that tell names apart -/

/-- A number above the name in the node. -/
def Node.Ty.nameBound : Node.Ty → Nat
  | .named n _ => n.index + 1
  | .primitive _ | .array _ => 0

theorem Store.exists_separates (st : Store) : ∃ names : Interner, names.Separates st := by
  have hbound : ∀ a n args, st.type a = .ok (.named n args) →
      n.index < (st.types.toList.map Node.Ty.nameBound).sum := by
    intro a n args h
    have hmem : Node.Ty.named n args ∈ st.types.toList :=
      Array.mem_toList_iff.2 (Array.mem_of_getElem? (type_eq_ok_iff.1 h))
    exact List.le_sum_of_mem (List.mem_map_of_mem (f := Node.Ty.nameBound) hmem)
  obtain ⟨names, hsize⟩ := Interner.exists_le_size (st.types.toList.map Node.Ty.nameBound).sum
  refine ⟨names, fun a b n m as bs ha hb h => ?_⟩
  have hn := Interner.knows_iff.2 ⟨Nat.lt_of_lt_of_le (hbound a n as ha) hsize, h⟩
  have hm := Interner.knows_iff.2 ⟨Nat.lt_of_lt_of_le (hbound b m bs hb) hsize, rfl⟩
  exact hn.inj hm

/-! ## Trees compared -/

namespace Store

variable {ν : Type} {st : Store} {names : Interner} {spell : Name → ν} {a b c : TypeId}

theorem exists_typesEqual {t t' : Tree.Ty ν} (ha : st.readType spell a = .ok t)
    (hb : st.readType spell b = .ok t') : ∃ same, st.typesEqual a b = .ok same :=
  exists_typesEqualTo (readTypeTo_pairs ha) (readTypeTo_pairs hb)

theorem eq_of_typesEqual {t t' : Tree.Ty ν} (h : st.typesEqual a b = .ok true)
    (ha : st.readType spell a = .ok t) (hb : st.readType spell b = .ok t') : t = t' := by
  have hread := readTypeTo_of_typesEqualTo h t (readTypeTo_pairs ha)
  rw [readTypeTo_pairs hb] at hread
  exact (Except.ok.inj hread).symm

theorem typesEqual_of_eq {t : Tree.Ty} (hnames : names.Separates st)
    (ha : st.readType names.lookup a = .ok t) (hb : st.readType names.lookup b = .ok t) :
    st.typesEqual a b = .ok true :=
  typesEqualTo_of_readTypeTo
    (fun a b n m as bs hn hm h _ => hnames a b n m as bs hn hm h) (readTypeTo_pairs ha)
    (readTypeTo_pairs hb)

/-- Two types have the same tree: they read alike, whatever their names stand for. -/
def SameTree (st : Store) (a b : TypeId) : Prop :=
  ∀ names : Interner, ∃ t, st.readType names.lookup a = .ok t ∧ st.readType names.lookup b = .ok t

theorem SameTree.symm (h : st.SameTree a b) : st.SameTree b a := by
  intro names
  obtain ⟨t, ha, hb⟩ := h names
  exact ⟨t, hb, ha⟩

theorem SameTree.trans (hab : st.SameTree a b) (hbc : st.SameTree b c) : st.SameTree a c := by
  intro names
  obtain ⟨t, ha, hb⟩ := hab names
  obtain ⟨t', hb', hc⟩ := hbc names
  rw [hb] at hb'
  cases hb'
  exact ⟨t, ha, hc⟩

namespace Unfoldable

theorem sameTree (h : st.Unfoldable a) : st.SameTree a a := by
  intro names
  obtain ⟨t, ht⟩ := h.exists_readType names.lookup
  exact ⟨t, ht, ht⟩

theorem typesEqual_iff (ha : st.Unfoldable a) (hb : st.Unfoldable b) :
    st.typesEqual a b = .ok true ↔ st.SameTree a b := by
  constructor
  · intro h names
    obtain ⟨t, hta⟩ := ha.exists_readType names.lookup
    obtain ⟨t', htb⟩ := hb.exists_readType names.lookup
    cases eq_of_typesEqual h hta htb
    exact ⟨t, hta, htb⟩
  · intro h
    obtain ⟨names, hnames⟩ := st.exists_separates
    obtain ⟨t, hta, htb⟩ := h names
    exact typesEqual_of_eq hnames hta htb

/-- Where the table tells the names apart, the trees it shows decide the comparison. -/
theorem typesEqual_iff_of_separates (ha : st.Unfoldable a) (hb : st.Unfoldable b)
    (hnames : names.Separates st) :
    st.typesEqual a b = .ok true ↔ st.readType names.lookup a = st.readType names.lookup b := by
  obtain ⟨t, hta⟩ := ha.exists_readType names.lookup
  obtain ⟨t', htb⟩ := hb.exists_readType names.lookup
  rw [hta, htb]
  constructor
  · intro h
    rw [eq_of_typesEqual h hta htb]
  · intro h
    cases h
    exact typesEqual_of_eq hnames hta htb

theorem equivalence (st : Store) :
    Equivalence fun a b : { id // st.Unfoldable id } => st.typesEqual a b = .ok true where
  refl a := (a.2.typesEqual_iff a.2).2 a.2.sameTree
  symm {a b} h := (b.2.typesEqual_iff a.2).2 ((a.2.typesEqual_iff b.2).1 h).symm
  trans {a b c} hab hbc := by
    rw [a.2.typesEqual_iff b.2] at hab
    rw [b.2.typesEqual_iff c.2] at hbc
    exact (a.2.typesEqual_iff c.2).2 (hab.trans hbc)

end Unfoldable

end Store

/-! ## Trees copied -/

/-- The nodes of a stored type are types. -/
theorem TyAt.sort_eq {st : Store} {sp : Spelling} {t : Tree.Ty} {id : TypeId} {fp : List NodeRef}
    (h : TyAt st sp t id fp) : ∀ n ∈ fp, n.sort = .type := by
  refine Stored.induct (P := fun t _ fp => t.sort = .type → ∀ n ∈ fp, n.sort = .type) ?_ h rfl
  intro t n ns fp head _ ih ht m hm
  rcases List.mem_cons.1 hm with rfl | hm
  · rw [head.sort_eq, ht]
  · obtain ⟨t', ht', _, _, f, hR, hf⟩ := ih.exists_of_mem hm
    refine hR.2 ?_ m hf
    cases t with
    | ty t =>
      cases t with
      | primitive p => simp [Tree.Any.parts] at ht'
      | named n args =>
        obtain ⟨a, -, rfl⟩ := List.mem_map.1 ht'
        rfl
      | array elem =>
        obtain rfl := List.mem_singleton.1 ht'
        rfl
    | expr | stmt | arm => cases ht

namespace Store

variable {st : Store}

/-- Whatever can be read in the first store reads the same in the second. -/
structure ReadsOn (st st' : Store) : Prop where
  type : ∀ id, Extends (st.type id) (st'.type id)
  typeList : ∀ r, Extends (st.typeList r) (st'.typeList r)
  expr : ∀ id, Extends (st.expr id) (st'.expr id)
  exprList : ∀ r, Extends (st.exprList r) (st'.exprList r)
  stmt : ∀ id, Extends (st.stmt id) (st'.stmt id)
  stmtList : ∀ r, Extends (st.stmtList r) (st'.stmtList r)
  arm : ∀ id, Extends (st.arm id) (st'.arm id)

theorem Grows.readsOn {st' : Store} (hg : st.Grows st' nothing) : st.ReadsOn st' :=
  ⟨hg.type_extends, hg.typeList_extends, hg.expr_extends, hg.exprList_extends, hg.stmt_extends,
    hg.stmtList_extends, hg.arm_extends⟩

/-- The type at the second id has the tree of the first, in nodes that are distinct and new to the
store. -/
def CopiedTo (st : Store) (id : TypeId) (st' : Store) (id' : TypeId) : Prop :=
  ∀ names : Interner, ∃ t nodes,
    st.readType names.lookup id = .ok t ∧ st'.readType names.lookup id' = .ok t ∧
    TyAt st' names.Reads t id' nodes ∧ nodes.Nodup ∧
    ∀ n ∈ nodes, n.sort = .type ∧ st.types.size ≤ n.index

theorem exists_copyType {id : TypeId} (h : st.Unfoldable id) :
    ∃ id' st', (copyType id).run.run st = (.ok id', st') ∧ st.Grows st' nothing ∧
      st.CopiedTo id st' id' := by
  obtain ⟨t, ht⟩ := h.exists_readType fun n => n
  obtain ⟨id', st', f, hrun, hadds, -⟩ := copyType_of_read ht
  refine ⟨id', st', hrun, hadds.grows, fun names => ?_⟩
  -- Copying looks at no table of names, so this is the same copy.
  obtain ⟨t, ht⟩ := h.exists_readType names.lookup
  obtain ⟨_, _, nodes, hrun', hadds, hcopy⟩ := copyType_of_read ht
  cases hrun.symm.trans hrun'
  refine ⟨t, nodes, ht, readType_eq hcopy hadds.nodup, hcopy, hadds.nodup, fun n hn => ?_⟩
  have hsort := hcopy.sort_eq n hn
  have hfresh := hadds.fresh n hn
  rw [Old, hsort] at hfresh
  exact ⟨hsort, Nat.le_of_not_lt hfresh⟩

theorem CopiedTo.typesEqual {st' : Store} {id id' : TypeId} (h : st.CopiedTo id st' id')
    (hg : st.Grows st' nothing) : st'.typesEqual id id' = .ok true := by
  obtain ⟨names, hnames⟩ := st'.exists_separates
  obtain ⟨t, _, hread, hread', -⟩ := h names
  exact typesEqual_of_eq hnames (hg.readType id t hread) hread'

/-- A type in bounds that does not contain itself can be copied: the copy has its tree, in nodes
that are new and distinct, what was there before reads as before, and the two compare equal.
Comparing two such types tells whether their trees are equal, and so is an equivalence. -/
theorem typeTrees_copied_and_compared (st : Store) :
    (∀ id, st.Unfoldable id → ∃ id' st', (copyType id).run.run st = (.ok id', st') ∧
      st.CopiedTo id st' id' ∧ st.ReadsOn st' ∧ st'.typesEqual id id' = .ok true) ∧
    (∀ a b, st.Unfoldable a → st.Unfoldable b →
      (∃ same, st.typesEqual a b = .ok same ∧ (same = true ↔ st.SameTree a b)) ∧
      ∀ names : Interner, names.Separates st →
        (st.typesEqual a b = .ok true ↔ st.readType names.lookup a = st.readType names.lookup b)) ∧
    Equivalence fun a b : { id // st.Unfoldable id } => st.typesEqual a b = .ok true := by
  refine ⟨?_, ?_, Unfoldable.equivalence st⟩
  · intro id h
    obtain ⟨id', st', hrun, hg, hcopied⟩ := exists_copyType h
    exact ⟨id', st', hrun, hcopied, hg.readsOn, hcopied.typesEqual hg⟩
  · intro a b ha hb
    refine ⟨?_, fun names hnames => ha.typesEqual_iff_of_separates hb hnames⟩
    obtain ⟨t, hta⟩ := ha.exists_readType fun n => n
    obtain ⟨t', htb⟩ := hb.exists_readType fun n => n
    obtain ⟨same, hsame⟩ := exists_typesEqual hta htb
    refine ⟨same, hsame, ?_⟩
    rw [← ha.typesEqual_iff hb, hsame, Except.ok.injEq]

/-- If every part stands before the types it is a part of, all types unfold. -/
theorem unfoldable_of_parts_before
    (h : ∀ i < st.types.size, ∃ ns, st.slots ⟨.type, i⟩ = .ok ns ∧ ∀ n ∈ ns, n.index < i)
    {id : TypeId} (hid : id.index < st.types.size) : st.Unfoldable id := by
  have hpart : ∀ {whole part : TypeId}, st.HasPart whole part → part.index < whole.index := by
    rintro whole part ⟨ns, hns, hmem⟩
    obtain ⟨node, hnode, -⟩ := slots_type_iff.1 hns
    obtain ⟨ns', hns', hbefore⟩ := h whole.index (Array.getElem?_eq_some_iff.1 hnode).1
    cases hns.symm.trans hns'
    exact hbefore part.ref hmem
  refine ⟨fun part hreach => ?_, fun part _ hcycle => ?_⟩
  · have hle : part.index ≤ id.index := by
      induction hreach with
      | refl => exact Nat.le_refl _
      | tail _ hp ih => exact Nat.le_trans (Nat.le_of_lt (hpart hp)) ih
    obtain ⟨ns, hns, -⟩ := h part.index (Nat.lt_of_le_of_lt hle hid)
    exact ⟨ns, hns⟩
  · have hbelow : ∀ {whole below : TypeId}, Relation.TransGen st.HasPart whole below →
        below.index < whole.index := by
      intro whole below hpath
      induction hpath with
      | single hp => exact hpart hp
      | tail _ hp ih => exact Nat.lt_trans (hpart hp) ih
    exact Nat.lt_irrefl _ (hbelow hcycle)

/-- Twice a generic type with two equal arguments, which it holds in one node the first time and in
two the second. -/
def sharedArgument : Store :=
  { types := #[.primitive .int, .array ⟨0⟩, .named ⟨1⟩ ⟨0, 2⟩, .array ⟨0⟩, .named ⟨1⟩ ⟨2, 2⟩]
    typeLists := #[⟨1⟩, ⟨1⟩, ⟨1⟩, ⟨3⟩] }

theorem sharedArgument_unfoldable {id : TypeId} (hid : id.index < 5) :
    sharedArgument.Unfoldable id := by
  refine unfoldable_of_parts_before (fun i hi => ?_) hid
  have hi : i < 5 := hi
  obtain rfl | rfl | rfl | rfl | rfl : i = 0 ∨ i = 1 ∨ i = 2 ∨ i = 3 ∨ i = 4 := by omega
  all_goals exact ⟨_, rfl, by decide⟩

theorem typeTrees_copied_and_compared_shared :
    sharedArgument.Unfoldable ⟨2⟩ ∧ sharedArgument.Unfoldable ⟨4⟩ ∧
      (∃ id' st', (copyType ⟨2⟩).run.run sharedArgument = (.ok id', st') ∧
        sharedArgument.CopiedTo ⟨2⟩ st' id' ∧ sharedArgument.ReadsOn st' ∧
        st'.typesEqual ⟨2⟩ id' = .ok true) ∧
      sharedArgument.SameTree ⟨2⟩ ⟨4⟩ := by
  have h2 : sharedArgument.Unfoldable ⟨2⟩ := sharedArgument_unfoldable (by decide)
  have h4 : sharedArgument.Unfoldable ⟨4⟩ := sharedArgument_unfoldable (by decide)
  obtain ⟨hcopy, hcompare, -⟩ := typeTrees_copied_and_compared sharedArgument
  obtain ⟨⟨same, hsame, htree⟩, -⟩ := hcompare ⟨2⟩ ⟨4⟩ h2 h4
  have hequal : sharedArgument.typesEqual ⟨2⟩ ⟨4⟩ = .ok true := by rfl
  cases hsame.symm.trans hequal
  exact ⟨h2, h4, hcopy ⟨2⟩ h2, htree.1 rfl⟩

end Store

end TupleAssign
