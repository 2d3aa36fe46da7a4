import TupleAssign.Proofs.Building
import TupleAssign.Splice
/-!
# Splices succeed

Replacing a statement that stands once in the list of a container puts the replacement in its place
and changes nothing else: the container keeps everything but its list, and all other nodes stay as
they are (`Program.splice_eq`). In particular the check that follows the replacement passes.
-/

namespace TupleAssign

open Store

/-! ## Bodies of methods -/

namespace CompilationUnit

variable {ν τ ε β : Type}

theorem modify_eq_self {α : Type} {l : List α} {i : Nat} {a : α} {f : α → α} (h : l[i]? = some a)
    (hf : f a = a) : l.modify i f = l := by
  refine List.ext_getElem? fun j => ?_
  rw [List.getElem?_modify]
  by_cases hij : i = j
  · subst hij
    simp [h, hf]
  · cases l[j]? <;> simp [hij]

theorem method?_setBody (u : CompilationUnit ν τ ε β) (m : MethodRef) (b : β) :
    (u.setBody m b).method? m = (u.method? m).map fun d => { d with body := some b } := by
  unfold method? setBody
  simp only [List.getElem?_modify, if_true]
  cases u.classes[m.cls]? with
  | none => rfl
  | some c =>
    simp only [Option.map_eq_map, Option.map_some, List.getElem?_modify, if_true]
    cases c.members[m.member]? with
    | none => rfl
    | some d => cases d <;> rfl

theorem setBody_setBody (u : CompilationUnit ν τ ε β) (m : MethodRef) (b b' : β) :
    (u.setBody m b).setBody m b' = u.setBody m b' := by
  unfold setBody
  simp only [List.modify_modify_eq, CompilationUnit.mk.injEq, true_and, and_true]
  refine congrArg (u.classes.modify m.cls) (funext fun c => ?_)
  simp only [Function.comp_apply, List.modify_modify_eq, Class.mk.injEq, true_and, and_true]
  refine congrArg (c.members.modify m.member) (funext fun d => ?_)
  cases d <;> rfl

theorem setBody_self {u : CompilationUnit ν τ ε β} {m : MethodRef} {d : Method ν τ β} {b : β}
    (hd : u.method? m = some d) (hb : d.body = some b) : u.setBody m b = u := by
  unfold method? at hd
  cases hc : u.classes[m.cls]? with
  | none => simp [hc] at hd
  | some c =>
    simp only [hc] at hd
    have hm : c.members[m.member]? = some (.method d) := by
      split at hd
      · next h => rw [h, Option.some.inj hd]
      · cases hd
    unfold setBody
    rw [modify_eq_self hc]
    rw [modify_eq_self hm]
    simp only [← hb]

end CompilationUnit

/-! ## The list of a container -/

/-- The node that owns the list, unless it is the body of a method. -/
def Container.node? : Container → Option NodeRef
  | .block id => some id.ref
  | .arm id => some id.ref
  | .body _ => none

/-- The container has a statement list, and it consists of these statements. -/
def Program.Lists (p : Program) (c : Container) (ids : List StmtId) : Prop :=
  ∃ slice, p.containerStmts? c = .ok (some slice) ∧ p.store.stmtList slice = .ok ids

section Lists

variable {p : Program} {ids : List StmtId}

theorem Program.lists_block_iff {id : StmtId} :
    p.Lists (.block id) ids ↔
      ∃ b span, p.store.stmts[id.index]? = some ⟨.block b, span⟩ ∧
        p.store.stmtList b.stmts = .ok ids := by
  constructor
  · rintro ⟨slice, hslice, hids⟩
    simp only [containerStmts?, bind_eq_ok_iff, stmt_eq_ok_iff] at hslice
    obtain ⟨⟨kind, span⟩, hnode, hslice⟩ := hslice
    cases kind with
    | block b =>
      cases hslice
      exact ⟨b, span, hnode, hids⟩
    | _ => cases hslice
  · rintro ⟨b, span, hnode, hids⟩
    refine ⟨b.stmts, ?_, hids⟩
    simp only [containerStmts?, bind_eq_ok_iff, stmt_eq_ok_iff]
    exact ⟨_, hnode, rfl⟩

theorem Program.lists_arm_iff {id : ArmId} :
    p.Lists (.arm id) ids ↔
      ∃ a, p.store.arms[id.index]? = some a ∧ p.store.stmtList a.stmts = .ok ids := by
  constructor
  · rintro ⟨slice, hslice, hids⟩
    simp only [containerStmts?, bind_eq_ok_iff, arm_eq_ok_iff] at hslice
    obtain ⟨a, hnode, hslice⟩ := hslice
    cases hslice
    exact ⟨a, hnode, hids⟩
  · rintro ⟨a, hnode, hids⟩
    refine ⟨a.stmts, ?_, hids⟩
    simp only [containerStmts?, bind_eq_ok_iff, arm_eq_ok_iff]
    exact ⟨_, hnode, rfl⟩

theorem Program.lists_body_iff {m : MethodRef} :
    p.Lists (.body m) ids ↔ ∃ d b, p.unit.method? m = some d ∧ d.body = some b ∧
      p.store.stmtList b.stmts = .ok ids := by
  constructor
  · rintro ⟨slice, hslice, hids⟩
    simp only [containerStmts?, ok_pure_iff, Option.bind_eq_some_iff,
      Option.map_eq_some_iff] at hslice
    obtain ⟨d, hd, b, hb, rfl⟩ := hslice
    exact ⟨d, b, hd, hb, hids⟩
  · rintro ⟨d, b, hd, hb, hids⟩
    exact ⟨b.stmts, by simp [containerStmts?, hd, hb, pure, Except.pure], hids⟩

end Lists

/-- The second program differs from the first, as far as the container goes, in its list only. -/
def Container.SameShape : Container → Program → Program → Prop
  | .block id, p, p' => ∀ b span, p.store.stmts[id.index]? = some ⟨.block b, span⟩ →
      ∃ b', p'.store.stmts[id.index]? = some ⟨.block b', span⟩
  | .arm id, p, p' => ∀ a, p.store.arms[id.index]? = some a →
      ∃ stmts, p'.store.arms[id.index]? = some { a with stmts }
  | .body m, p, p' => ∀ d b, p.unit.method? m = some d → d.body = some b →
      ∃ stmts, p'.unit = p.unit.setBody m { b with stmts }

section Shape

variable {c : Container} {p p' p'' : Program} {T : NodeRef → Prop}

theorem Container.SameShape.trans (h : c.SameShape p p') (h' : c.SameShape p' p'') :
    c.SameShape p p'' := by
  cases c with
  | block id =>
    intro b span hb
    obtain ⟨b', hb'⟩ := h b span hb
    exact h' b' span hb'
  | arm id =>
    intro a ha
    obtain ⟨stmts, ha'⟩ := h a ha
    obtain ⟨stmts', ha''⟩ := h' _ ha'
    exact ⟨stmts', ha''⟩
  | body m =>
    intro d b hd hb
    obtain ⟨stmts, hu⟩ := h d b hd hb
    have hd' : p'.unit.method? m = some { d with body := some { b with stmts } } := by
      rw [hu, CompilationUnit.method?_setBody, hd]
      rfl
    obtain ⟨stmts', hu'⟩ := h' _ _ hd' rfl
    exact ⟨stmts', by rw [hu', hu, CompilationUnit.setBody_setBody]⟩

/-- Where neither the node of a container nor the unit changes, its list is the same. -/
theorem Program.Lists.of_untouched (hg : p.store.Grows p'.store T) (hu : p'.unit = p.unit)
    (hc : ∀ n, c.node? = some n → ¬ T n) {ids : List StmtId} (h : p.Lists c ids) :
    p'.Lists c ids := by
  cases c with
  | block id =>
    obtain ⟨b, span, hnode, hids⟩ := lists_block_iff.1 h
    exact lists_block_iff.2 ⟨b, span, hg.stmt_eq hnode (hc _ rfl), hg.stmtList_eq hids⟩
  | arm id =>
    obtain ⟨a, hnode, hids⟩ := lists_arm_iff.1 h
    exact lists_arm_iff.2 ⟨a, hg.arm_eq hnode (hc _ rfl), hg.stmtList_eq hids⟩
  | body m =>
    obtain ⟨d, b, hd, hb, hids⟩ := lists_body_iff.1 h
    exact lists_body_iff.2 ⟨d, b, hu ▸ hd, hb, hg.stmtList_eq hids⟩

theorem Container.SameShape.of_untouched (hg : p.store.Grows p'.store T) (hu : p'.unit = p.unit)
    (hc : ∀ n, c.node? = some n → ¬ T n) : c.SameShape p p' := by
  cases c with
  | block id => exact fun b span hb => ⟨b, hg.stmt_eq hb (hc _ rfl)⟩
  | arm id => exact fun a ha => ⟨a.stmts, hg.arm_eq ha (hc _ rfl)⟩
  | body m =>
    intro d b hd hb
    exact ⟨b.stmts, by rw [hu]; exact (CompilationUnit.setBody_self hd hb).symm⟩

end Shape

/-! ## Locating -/

namespace Program

variable {p : Program} {path : Path} {c : Container} {id : StmtId} {ids : List StmtId}

theorem locate_of_anchor_error {u : Unsupported} (h : path.anchor = .error u) :
    p.locate path = .ok (.error u) := by
  simp only [locate, h]
  rfl

/-- What is located is the statement that the path leads to, at its first place in the list of the
container around it. -/
theorem locate_eq_ok_iff {l : Location} :
    p.locate path = .ok (.ok l) ↔ path.anchor = .ok (l.stmt, l.container) ∧
      ∃ ids, p.Lists l.container ids ∧ ids.idxOf? l.stmt = some l.position := by
  constructor
  · intro h
    unfold locate at h
    split at h
    · cases h
    · next id c hanchor =>
      obtain ⟨o, hslice, h⟩ := bind_eq_ok_iff.1 h
      cases o with
      | none => cases h
      | some slice =>
        obtain ⟨ids, hids, h⟩ := bind_eq_ok_iff.1 h
        split at h
        · cases h
        · next position hposition =>
          cases h
          exact ⟨hanchor, ids, ⟨slice, hslice, hids⟩, hposition⟩
  · rintro ⟨hanchor, ids, ⟨slice, hslice, hids⟩, hposition⟩
    simp [locate, hanchor, hslice, hids, hposition, bind, Except.bind, pure, Except.pure]

/-- A statement that stands in the list of its container is found there. -/
theorem locate_of_mem (ha : path.anchor = .ok (id, c)) (hl : p.Lists c ids) (hid : id ∈ ids) :
    ∃ position, p.locate path = .ok (.ok ⟨c, id, position⟩) := by
  obtain ⟨position, hposition⟩ := Option.isSome_iff_exists.1 (List.isSome_idxOf?.2 hid)
  exact ⟨position, locate_eq_ok_iff.2 ⟨ha, ids, hl, hposition⟩⟩

theorem locate_of_not_mem (ha : path.anchor = .ok (id, c)) (hl : p.Lists c ids) (hid : id ∉ ids) :
    p.locate path = .ok (.error .detached) := by
  obtain ⟨slice, hslice, hids⟩ := hl
  have hpos := List.idxOf?_eq_none_iff.2 hid
  simp [locate, ha, hslice, hids, hpos, bind, Except.bind, pure, Except.pure]

end Program

/-! ## Replacing -/

theorem exchange_eq_self {id : StmtId} {new ids : List StmtId} (h : id ∉ ids) :
    exchange id new ids = ids := by
  induction ids with
  | nil => rfl
  | cons i ids ih =>
    rw [List.mem_cons, not_or] at h
    rw [exchange, List.flatMap_cons, if_neg (Ne.symm h.1)]
    exact congrArg (i :: ·) (ih h.2)

theorem exchange_once {id : StmtId} {new pre post : List StmtId} (hpre : id ∉ pre)
    (hpost : id ∉ post) : exchange id new (pre ++ id :: post) = pre ++ (new ++ post) := by
  have h₁ : exchange id new pre = pre := exchange_eq_self hpre
  have h₂ : exchange id new post = post := exchange_eq_self hpost
  simp only [exchange] at h₁ h₂ ⊢
  rw [List.flatMap_append, List.flatMap_cons, if_pos rfl, h₁, h₂]

theorem idxOf?_append_cons {id : StmtId} {pre post : List StmtId} (hpre : id ∉ pre) :
    (pre ++ id :: post).idxOf? id = some pre.length := by
  induction pre with
  | nil => simp [List.idxOf?_cons]
  | cons i pre ih =>
    rw [List.mem_cons, not_or] at hpre
    simp [List.idxOf?_cons, Ne.symm hpre.1, ih hpre.2]

/-- A statement is found where its first occurrence cuts the list in two. -/
theorem idxOf?_eq_some_iff {id : StmtId} {ids : List StmtId} {position : Nat} :
    ids.idxOf? id = some position ↔
      ∃ pre post, ids = pre ++ id :: post ∧ id ∉ pre ∧ pre.length = position := by
  constructor
  · intro h
    have hmem : id ∈ ids := List.isSome_idxOf?.1 (by rw [h]; rfl)
    obtain ⟨pre, post, rfl, hpre⟩ := List.eq_append_cons_of_mem hmem
    rw [idxOf?_append_cons hpre] at h
    exact ⟨pre, post, rfl, hpre, Option.some.inj h⟩
  · rintro ⟨pre, post, rfl, hpre, rfl⟩
    exact idxOf?_append_cons hpre

theorem checkSplice_once {id : StmtId} {new pre post : List StmtId} (hpre : id ∉ pre) :
    checkSplice (pre ++ id :: post) (pre ++ (new ++ post)) id new = .ok () := by
  simp only [checkSplice, idxOf?_append_cons hpre]
  rw [if_neg (by simp; omega), if_neg (by simp), if_neg (by simp),
    if_neg (by simp [List.drop_append])]

/-- A container with a list can be given another one; nothing else changes. -/
theorem Program.setContainerStmts_eq {p : Program} {c : Container} {ids new : List StmtId}
    {slice : Slice .stmt} (h : p.Lists c ids) (hslice : p.store.stmtList slice = .ok new) :
    ∃ p', p.setContainerStmts c slice = .ok (.ok p') ∧ p'.Lists c new ∧
      p.store.Grows p'.store (fun n => c.node? = some n) ∧ c.SameShape p p' ∧
      ((∀ m, c ≠ .body m) → p'.unit = p.unit) := by
  cases c with
  | block id =>
    obtain ⟨b, span, hnode, -⟩ := lists_block_iff.1 h
    obtain ⟨st, hset, hnode', hg⟩ := setStmtKind_eq (.block { b with stmts := slice }) hnode
    refine ⟨{ p with store := st }, ?_, ?_, ?_, ?_, fun _ => rfl⟩
    · simp [setContainerStmts, stmt_eq_ok_iff.2 hnode, hset, bind, Except.bind, pure, Except.pure]
    · exact lists_block_iff.2 ⟨_, span, hnode', hg.stmtList_eq hslice⟩
    · exact hg.mono fun n _ hn => congrArg some hn
    · intro b' span' hb'
      cases hnode.symm.trans hb'
      exact ⟨_, hnode'⟩
  | arm id =>
    obtain ⟨a, hnode, -⟩ := lists_arm_iff.1 h
    obtain ⟨st, hset, hnode', hg⟩ := setArmStmts_eq slice hnode
    refine ⟨{ p with store := st }, ?_, ?_, ?_, ?_, fun _ => rfl⟩
    · simp [setContainerStmts, hset, bind, Except.bind, pure, Except.pure]
    · exact lists_arm_iff.2 ⟨_, hnode', hg.stmtList_eq hslice⟩
    · exact hg.mono fun n _ hn => congrArg some hn
    · intro a' ha'
      cases hnode.symm.trans ha'
      exact ⟨_, hnode'⟩
  | body m =>
    obtain ⟨d, b, hd, hb, -⟩ := lists_body_iff.1 h
    refine ⟨{ p with unit := p.unit.setBody m { b with stmts := slice } }, ?_, ?_, .refl _ _, ?_,
      fun hm => absurd rfl (hm m)⟩
    · simp [setContainerStmts, hd, hb, pure, Except.pure]
    · refine lists_body_iff.2 ⟨{ d with body := some { b with stmts := slice } }, _, ?_, rfl, hslice⟩
      rw [CompilationUnit.method?_setBody, hd]
      rfl
    · intro d' b' hd' hb'
      cases hd.symm.trans hd'
      cases hb.symm.trans hb'
      exact ⟨slice, rfl⟩

/-- A splice of a statement that stands once in its list succeeds. -/
theorem Program.splice_eq {p : Program} {c : Container} {id : StmtId} {pre post : List StmtId}
    (new : List StmtId) (h : p.Lists c (pre ++ id :: post)) (hpre : id ∉ pre) (hpost : id ∉ post) :
    ∃ slice p', p.splice c id new = .ok (.ok slice, p') ∧ p'.Lists c (pre ++ (new ++ post)) ∧
      p.store.Grows p'.store (fun n => c.node? = some n) ∧ c.SameShape p p' ∧
      ((∀ m, c ≠ .body m) → p'.unit = p.unit) := by
  have hg := (allocStmtList_adds p.store (pre ++ (new ++ post))).grows
  have hlist := stmtList_allocStmtList p.store (pre ++ (new ++ post))
  generalize hrun : allocStmtList (pre ++ (new ++ post)) p.store = r at hg hlist
  obtain ⟨slice, st⟩ := r
  -- The list is entered first; then the container is pointed at it.
  have hlists : Program.Lists { p with store := st } c (pre ++ id :: post) := by
    refine Program.Lists.of_untouched (T := nothing) hg ?_ (fun _ _ hn => hn) h
    rfl
  obtain ⟨p', hset, hlists', hg', hshape, hunit⟩ := setContainerStmts_eq hlists hlist
  refine ⟨slice, p', ?_, hlists', hg.of_nothing.trans hg', ?_, hunit⟩
  · obtain ⟨old, hold, hids⟩ := h
    have hrelist : p.relist c (pre ++ (new ++ post)) = .ok (.ok slice, p') := by
      simp [relist, StateT.run, hrun, hset, bind, Except.bind, pure, Except.pure]
    simp [splice, hold, hids, exchange_once hpre hpost, hrelist, checkSplice_once hpre, bind,
      Except.bind, pure, Except.pure]
  · have hentered : c.SameShape p { p with store := st } :=
      .of_untouched (T := nothing) hg rfl fun _ _ hn => hn
    exact hentered.trans hshape

end TupleAssign
