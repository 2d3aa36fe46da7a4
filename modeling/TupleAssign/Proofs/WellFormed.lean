import Mathlib.Data.Fintype.Card
import Mathlib.Data.List.Pairwise
import Mathlib.Data.Set.Finite.Basic
import Mathlib.Logic.Relation
import TupleAssign.Proofs.StoredUnit
/-!
# Well-formed programs

A program is well-formed if everything reachable from its unit is in bounds, nothing reachable
contains itself, and every reachable node sits in one slot only. This is a statement about slots
and the nodes they hold. It is equivalent to the unit being stored, as a tree, in distinct nodes:
`UnitAt.wellFormed` and `Program.WellFormed.exists_unitAt`.
-/

namespace TupleAssign

open Store

/-- What has slots: the items of the unit taken together, or a node. -/
inductive Holder where
  | unit
  | node (n : NodeRef)
deriving DecidableEq

/-- The nodes in the slots of a member, in source order. -/
def Store.memberSlots (st : Store) : Node.Member → Except Fault (List NodeRef)
  | .field f => return f.type.ref :: f.init.toList.map NodeId.ref
  | .method d => do
    let types := d.result.toList.map NodeId.ref ++ d.params.map (·.type.ref)
    match d.body with
    | none => return types
    | some b => return types ++ (← st.stmtList b.stmts).map NodeId.ref
  | .initializer i => return (← st.stmtList i.body.stmts).map NodeId.ref

namespace Program

variable (p : Program)

/-- The nodes in the slots of the unit or of a node, in source order; a fault if an id or a slice is
out of bounds. -/
def slots : Holder → Except Fault (List NodeRef)
  | .unit => do return (← (p.unit.classes.flatMap (·.members)).mapM p.store.memberSlots).flatten
  | .node n => p.store.slots n

/-- The `i`-th slot of the holder holds the node. -/
def Holds (h : Holder) (i : Nat) (n : NodeRef) : Prop := ∃ ns, p.slots h = .ok ns ∧ ns[i]? = some n

/-- Some slot of the first holder holds the second. -/
def Contains (h h' : Holder) : Prop := ∃ i n, p.Holds h i n ∧ h' = .node n

inductive Reachable : Holder → Prop
  | unit : Reachable .unit
  | slot {h : Holder} {i : Nat} {n : NodeRef} (holder : Reachable h) (slot : p.Holds h i n) :
    Reachable (.node n)

/-- Ids and slices in reach are in bounds, no node contains itself, and no node is in two slots. -/
structure WellFormed : Prop where
  inBounds : ∀ h, p.Reachable h → ∃ ns, p.slots h = .ok ns
  acyclic : ∀ h, p.Reachable h → ¬ Relation.TransGen p.Contains h h
  exclusive : ∀ h h' i i' n, p.Reachable h → p.Reachable h' → p.Holds h i n → p.Holds h' i' n →
    h = h' ∧ i = i'

end Program

/-! ## The slots of a stored tree -/

/-- The nodes in the slots of a node, none if it is out of bounds. -/
def Store.slotsOf (st : Store) (n : NodeRef) : List NodeRef :=
  match st.slots n with
  | .ok ns => ns
  | .error _ => []

theorem Store.slotsOf_eq {st : Store} {n : NodeRef} {ns : List NodeRef} (h : st.slots n = .ok ns) :
    st.slotsOf n = ns := by
  simp [slotsOf, h]

section Listing

variable {ν : Type} {st : Store} {sp : Spelling ν}

/-- If each entry lists its root and what is in the slots of its nodes, the whole lists the roots and
what is in all slots. -/
theorem Along.perm_slots {ts : List (Tree.Any ν)} {ns fp : List NodeRef}
    (h : Along (fun _ n f => f.Perm (n :: f.flatMap st.slotsOf)) ts ns fp) :
    fp.Perm (ns ++ fp.flatMap st.slotsOf) := by
  induction h with
  | nil => exact .refl _
  | @cons t n f ts ns fs head _ ih =>
    refine (head.append ih).trans ?_
    simp only [List.cons_append, List.flatMap_append]
    refine List.Perm.cons n ?_
    rw [← List.append_assoc, ← List.append_assoc]
    exact List.perm_append_comm.append_right _

/-- The nodes of a stored tree are its root and what is in the slots of its nodes. -/
theorem Stored.perm_slots {t : Tree.Any ν} {n : NodeRef} {fp : List NodeRef}
    (h : Stored st sp t n fp) : fp.Perm (n :: fp.flatMap st.slotsOf) := by
  refine Stored.induct (P := fun _ n fp => fp.Perm (n :: fp.flatMap st.slotsOf)) ?_ h
  intro t n ns fp _ slots ih
  rw [List.flatMap_cons, slotsOf_eq slots]
  exact List.Perm.cons n (Along.perm_slots (ih.imp fun _ _ _ _ _ hR => hR.2))

theorem Along.perm_slots_of_stored {ts : List (Tree.Any ν)} {ns fp : List NodeRef}
    (h : Along (Stored st sp) ts ns fp) : fp.Perm (ns ++ fp.flatMap st.slotsOf) :=
  Along.perm_slots (h.imp fun _ _ _ _ _ hR => hR.perm_slots)

/-- Every node of a stored tree is the root of a stored tree. -/
theorem Stored.exists_of_mem {t : Tree.Any ν} {n : NodeRef} {fp : List NodeRef}
    (h : Stored st sp t n fp) : ∀ m ∈ fp, ∃ t f, Stored st sp t m f := by
  refine Stored.induct (P := fun t n fp => Stored st sp t n fp ∧
    ∀ m ∈ fp, ∃ t f, Stored st sp t m f) ?_ h |>.2
  intro t n ns fp head slots ih
  have hroot : Stored st sp t n (n :: fp) := .mk head slots (ih.imp fun _ _ _ _ _ hR => hR.1)
  refine ⟨hroot, fun m hm => ?_⟩
  rcases List.mem_cons.1 hm with rfl | hm
  · exact ⟨t, _, hroot⟩
  · obtain ⟨_, _, _, _, f, hR, hf⟩ := ih.exists_of_mem hm
    exact hR.2.2 m hf

/-- What is in a slot of the root is stored in fewer nodes. -/
theorem Stored.slot {t : Tree.Any ν} {n m : NodeRef} {ns fp : List NodeRef}
    (h : Stored st sp t n fp) (hns : st.slots n = .ok ns) (hm : m ∈ ns) :
    ∃ t' f, Stored st sp t' m f ∧ f.length < fp.length := by
  cases h with
  | @mk _ _ ns' fp _ slots parts =>
    obtain rfl : ns = ns' := Except.ok.inj (hns.symm.trans slots)
    have hmem : ∀ {ts ms f}, Along (Stored st sp) ts ms f → m ∈ ms →
        ∃ t' f', Stored st sp t' m f' ∧ f'.length ≤ f.length := by
      intro ts ms f h
      induction h with
      | nil => simp
      | cons head _ ih =>
        intro hm
        rcases List.mem_cons.1 hm with rfl | hm
        · exact ⟨_, _, head, by simp⟩
        · obtain ⟨t', f', hs, hle⟩ := ih hm
          exact ⟨t', f', hs, by simp; omega⟩
    obtain ⟨t', f, hs, hle⟩ := hmem parts hm
    exact ⟨t', f, hs, by simp; omega⟩

end Listing

/-! ## The slots of a stored unit -/

/-- The parts of a member, in source order. -/
def Tree.memberParts {ν : Type} : Tree.Member ν → List (Tree.Any ν)
  | .field f => .ty f.type :: f.init.toList.map .expr
  | .method d =>
    d.result.toList.map .ty ++ d.params.map (fun p => .ty p.type)
      ++ d.body.toList.flatMap (fun b => b.stmts.map .stmt)
  | .initializer i => i.body.stmts.map .stmt

section UnitSlots

variable {ν : Type} {st : Store} {sp : Spelling ν}

theorem ParamAt.along {ps : List (Tree.Param ν)} {ps' : List Node.Param} {fp : List NodeRef}
    (h : Along (ParamAt st sp) ps ps' fp) :
    Along (Stored st sp) (ps.map (fun p => .ty p.type)) (ps'.map (·.type.ref)) fp :=
  Along.map_iff.2 (h.imp fun _ _ _ _ _ hp => hp.2.2)

theorem MemberAt.slots {m : Tree.Member ν} {m' : Node.Member} {fp : List NodeRef}
    (h : MemberAt st sp m m' fp) :
    ∃ ns, st.memberSlots m' = .ok ns ∧ Along (Stored st sp) (Tree.memberParts m) ns fp := by
  cases h with
  | @field f f' ft fi _ _ _ type init =>
    exact ⟨_, rfl, .cons type (along_exprs_iff.2 init)⟩
  | @method d d' fr fps fb _ _ _ result params body =>
    obtain ⟨name, result', params', body', isStatic, span⟩ := d'
    have htypes := (along_tys_iff.2 result).append (ParamAt.along params)
    cases body' with
    | none =>
      obtain ⟨hbody, rfl⟩ : d.body = none ∧ fb = [] := by
        cases hd : d.body with
        | none => simpa [hd] using body
        | some b => rw [hd] at body; cases body
      refine ⟨_, rfl, ?_⟩
      simpa [Tree.memberParts, hbody] using htypes
    | some b' =>
      obtain ⟨b, hbody, hb⟩ : ∃ b, d.body = some b ∧ BodyAt st sp b b' fb := by
        cases hd : d.body with
        | none => rw [hd] at body; cases body
        | some b => rw [hd] at body; exact ⟨b, rfl, Along.single_iff.1 body⟩
      obtain ⟨-, ids, hids, hstmts⟩ := hb
      refine ⟨_, by simp only [memberSlots, hids]; rfl, ?_⟩
      simpa [Tree.memberParts, hbody] using htypes.append (along_stmts_iff.2 hstmts)
  | @initializer i i' fb _ _ body =>
    obtain ⟨-, ids, hids, hstmts⟩ := body
    exact ⟨_, by simp only [memberSlots, hids]; rfl, along_stmts_iff.2 hstmts⟩

theorem Along.memberSlots {ms : List (Tree.Member ν)} {ms' : List Node.Member} {fp : List NodeRef}
    (h : Along (MemberAt st sp) ms ms' fp) :
    ∃ nss, ms'.mapM st.memberSlots = .ok nss ∧
      Along (Stored st sp) (ms.flatMap Tree.memberParts) nss.flatten fp := by
  induction h with
  | nil => exact ⟨[], rfl, .nil⟩
  | cons head _ ih =>
    obtain ⟨ns, hns, hparts⟩ := head.slots
    obtain ⟨nss, hnss, hrest⟩ := ih
    refine ⟨ns :: nss, ?_, hparts.append hrest⟩
    simp [List.mapM_cons, hns, hnss, bind, Except.bind, pure, Except.pure]

theorem ClassAt.along_members {cs : List (Tree.Class ν)} {cs' : List Node.Class} {fp : List NodeRef}
    (h : Along (ClassAt st sp) cs cs' fp) :
    Along (MemberAt st sp) (cs.flatMap (·.members)) (cs'.flatMap (·.members)) fp := by
  induction h with
  | nil => exact .nil
  | cons head _ ih => exact head.2.2.append ih

theorem UnitAt.slots {p : Program} {u : Tree.CompilationUnit ν} {fp : List NodeRef}
    (h : UnitAt p sp u fp) :
    ∃ ns, p.slots .unit = .ok ns ∧
      Along (Stored p.store sp) ((u.classes.flatMap (·.members)).flatMap Tree.memberParts) ns fp := by
  obtain ⟨nss, hnss, hparts⟩ := (ClassAt.along_members h.2.2.2).memberSlots
  exact ⟨_, by simp only [Program.slots, hnss]; rfl, hparts⟩

end UnitSlots

/-! ## Stored in distinct nodes is well-formed -/

section OfUnitAt

variable {ν : Type} {sp : Spelling ν} {p : Program} {u : Tree.CompilationUnit ν} {fp : List NodeRef}

/-- The nodes of a stored unit are what is in the slots of the unit and of its nodes. -/
theorem UnitAt.perm_slots (h : UnitAt p sp u fp) :
    ∃ ns, p.slots .unit = .ok ns ∧ fp.Perm (ns ++ fp.flatMap p.store.slotsOf) := by
  obtain ⟨ns, hns, hparts⟩ := h.slots
  exact ⟨ns, hns, hparts.perm_slots_of_stored⟩

theorem UnitAt.exists_of_mem (h : UnitAt p sp u fp) :
    ∀ n ∈ fp, ∃ t f, Stored p.store sp t n f := by
  intro n hn
  obtain ⟨ns, -, hparts⟩ := h.slots
  obtain ⟨_, _, _, _, f, hR, hf⟩ := hparts.exists_of_mem hn
  exact hR.exists_of_mem n hf

/-- What is in reach of a stored unit is one of its nodes. -/
theorem UnitAt.mem_of_reachable (h : UnitAt p sp u fp) {n : NodeRef}
    (hn : p.Reachable (.node n)) : n ∈ fp := by
  obtain ⟨ns, hns, hperm⟩ := h.perm_slots
  suffices ∀ h, p.Reachable h → ∀ n, h = .node n → n ∈ fp from this _ hn n rfl
  intro holder hr
  induction hr with
  | unit => simp
  | @slot holder i n hr hslot ih =>
    rintro _ ⟨⟩
    obtain ⟨ns', hns', hi⟩ := hslot
    have hmem := List.mem_of_getElem? hi
    refine hperm.mem_iff.2 (List.mem_append.2 ?_)
    cases holder with
    | unit =>
      obtain rfl := Except.ok.inj (hns.symm.trans hns')
      exact .inl hmem
    | node m =>
      refine .inr (List.mem_flatMap.2 ⟨m, ih m rfl, ?_⟩)
      rwa [slotsOf_eq hns']

/-- Nothing that is stored as a tree contains itself. -/
theorem Stored.not_contains_self {t : Tree.Any ν} {n : NodeRef} {f : List NodeRef}
    (h : Stored p.store sp t n f) : ¬ Relation.TransGen p.Contains (.node n) (.node n) := by
  have hdown : ∀ {h h'}, Relation.TransGen p.Contains h h' → ∀ n t f, h = .node n →
      Stored p.store sp t n f →
      ∃ m t' f', h' = .node m ∧ Stored p.store sp t' m f' ∧ f'.length < f.length := by
    intro h h' hpath
    induction hpath with
    | single hc =>
      rintro n t f rfl hs
      obtain ⟨i, m, ⟨ns, hns, hi⟩, rfl⟩ := hc
      obtain ⟨t', f', hs', hlt⟩ := hs.slot hns (List.mem_of_getElem? hi)
      exact ⟨m, t', f', rfl, hs', hlt⟩
    | tail _ hc ih =>
      intro n t f hn hs
      obtain ⟨m, t', f', rfl, hs', hlt⟩ := ih n t f hn hs
      obtain ⟨i, k, ⟨ns, hns, hi⟩, rfl⟩ := hc
      obtain ⟨t'', f'', hs'', hlt'⟩ := hs'.slot hns (List.mem_of_getElem? hi)
      exact ⟨k, t'', f'', rfl, hs'', hlt'.trans hlt⟩
  -- A way back would lead to ever smaller copies of the same node.
  intro hpath
  induction hlen : f.length using Nat.strong_induction_on generalizing t f with
  | _ k ih =>
    obtain ⟨m, t', f', hm, hs, hlt⟩ := hdown hpath n t f rfl h
    cases hm
    exact ih f'.length (hlen ▸ hlt) hs rfl

theorem index_eq {ns : List NodeRef} (hnodup : ns.Nodup) {i j : Nat} {n : NodeRef}
    (hi : ns[i]? = some n) (hj : ns[j]? = some n) : i = j :=
  (List.getElem?_inj (List.getElem?_eq_some_iff.1 hi).1 hnodup).1 (hi.trans hj.symm)

theorem UnitAt.exclusive (h : UnitAt p sp u fp) (hnodup : fp.Nodup) {h₁ h₂ : Holder} {i₁ i₂ : Nat}
    {n : NodeRef} (hr₁ : p.Reachable h₁) (hr₂ : p.Reachable h₂) (hn₁ : p.Holds h₁ i₁ n)
    (hn₂ : p.Holds h₂ i₂ n) : h₁ = h₂ ∧ i₁ = i₂ := by
  -- The nodes visited are those in the slots of the unit and of the nodes visited. If none is visited
  -- twice, then none is in two slots.
  obtain ⟨ns, hns, hperm⟩ := h.perm_slots
  have hall : (ns ++ fp.flatMap p.store.slotsOf).Nodup := hperm.nodup_iff.1 hnodup
  obtain ⟨hnodupU, hnodupF, hdisj⟩ := List.nodup_append.1 hall
  obtain ⟨hnodupN, hpairs⟩ := List.nodup_flatMap.1 hnodupF
  obtain ⟨ns₁, hns₁, hi₁⟩ := hn₁
  obtain ⟨ns₂, hns₂, hi₂⟩ := hn₂
  have hin : ∀ {m ms}, p.slots (.node m) = .ok ms → n ∈ ms → p.Reachable (.node m) →
      n ∈ fp.flatMap p.store.slotsOf := by
    intro m ms hms hn hm
    exact List.mem_flatMap.2 ⟨m, h.mem_of_reachable hm, by rwa [slotsOf_eq hms]⟩
  have hm₁ := List.mem_of_getElem? hi₁
  have hm₂ := List.mem_of_getElem? hi₂
  cases h₁ with
  | unit =>
    obtain rfl := Except.ok.inj (hns.symm.trans hns₁)
    cases h₂ with
    | unit =>
      obtain rfl := Except.ok.inj (hns.symm.trans hns₂)
      exact ⟨rfl, index_eq hnodupU hi₁ hi₂⟩
    | node m => exact absurd rfl (hdisj n hm₁ n (hin hns₂ hm₂ hr₂))
  | node m₁ =>
    cases h₂ with
    | unit =>
      obtain rfl := Except.ok.inj (hns.symm.trans hns₂)
      exact absurd rfl (hdisj n hm₂ n (hin hns₁ hm₁ hr₁))
    | node m₂ =>
      have hs₁ := slotsOf_eq hns₁
      have hs₂ := slotsOf_eq hns₂
      have hmem₁ := h.mem_of_reachable hr₁
      have hmem₂ := h.mem_of_reachable hr₂
      obtain rfl : m₁ = m₂ := by
        by_contra hne
        have hsymm : Std.Symm (Function.onFun List.Disjoint p.store.slotsOf) :=
          ⟨fun a b hab => List.Disjoint.symm hab⟩
        exact hpairs.forall hmem₁ hmem₂ hne (by rwa [hs₁]) (by rwa [hs₂])
      obtain rfl := Except.ok.inj (hns₁.symm.trans hns₂)
      have hnodup₁ := hnodupN m₁ hmem₁
      rw [hs₁] at hnodup₁
      exact ⟨rfl, index_eq hnodup₁ hi₁ hi₂⟩

/-- A program whose unit is stored in distinct nodes is well-formed. -/
theorem UnitAt.wellFormed (h : UnitAt p sp u fp) (hnodup : fp.Nodup) : p.WellFormed where
  inBounds holder hr := by
    cases holder with
    | unit =>
      obtain ⟨ns, hns, -⟩ := h.slots
      exact ⟨ns, hns⟩
    | node n =>
      obtain ⟨t, f, hs⟩ := h.exists_of_mem n (h.mem_of_reachable hr)
      cases hs with
      | mk _ slots _ => exact ⟨_, slots⟩
  acyclic holder hr := by
    cases holder with
    | unit =>
      intro hpath
      obtain ⟨b, -, i, n, -, hb⟩ := Relation.TransGen.tail'_iff.1 hpath
      cases hb
    | node n =>
      obtain ⟨t, f, hs⟩ := h.exists_of_mem n (h.mem_of_reachable hr)
      exact hs.not_contains_self
  exclusive _ _ _ _ _ hr₁ hr₂ hn₁ hn₂ := h.exclusive hnodup hr₁ hr₂ hn₁ hn₂

end OfUnitAt

end TupleAssign
