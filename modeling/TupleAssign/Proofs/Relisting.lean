import TupleAssign.Proofs.LegalSplices
/-!
# Splicing changes one list

A statement that was located can be spliced, whatever replaces it. The container is pointed at a new
list, which is the old one with every occurrence of the statement exchanged, and nothing else in the
program differs (`Program.SameBut`): the old list, too, stays where it is.

The check that follows a splice looks at the first occurrence only. So it objects to a splice of a
statement that occurs again, unless every occurrence was exchanged for itself
(`checkSplice_exchange_iff`).
-/

namespace TupleAssign

open Store

/-! ## Exchanging -/

section Exchange

variable {id x : StmtId} {new ids pre post : List StmtId}

theorem exchange_cons (id : StmtId) (new : List StmtId) (i : StmtId) (ids : List StmtId) :
    exchange id new (i :: ids) = (if i = id then new else [i]) ++ exchange id new ids :=
  List.flatMap_cons

theorem exchange_append (id : StmtId) (new pre post : List StmtId) :
    exchange id new (pre ++ post) = exchange id new pre ++ exchange id new post :=
  List.flatMap_append

theorem exchange_singleton (id : StmtId) (ids : List StmtId) : exchange id [id] ids = ids := by
  induction ids with
  | nil => rfl
  | cons i ids ih =>
    rw [exchange_cons, ih]
    by_cases hi : i = id <;> simp [hi]

theorem mem_exchange :
    x ∈ exchange id new ids ↔ (id ∈ ids ∧ x ∈ new) ∨ (x ∈ ids ∧ x ≠ id) := by
  rw [exchange, List.mem_flatMap]
  constructor
  · rintro ⟨i, hi, hx⟩
    by_cases hid : i = id
    · subst hid
      rw [if_pos rfl] at hx
      exact .inl ⟨hi, hx⟩
    · rw [if_neg hid, List.mem_singleton] at hx
      subst hx
      exact .inr ⟨hi, hid⟩
  · rintro (⟨hid, hx⟩ | ⟨hx, hne⟩)
    · exact ⟨id, hid, by rwa [if_pos rfl]⟩
    · exact ⟨x, hx, by rw [if_neg hne]; exact List.mem_singleton_self x⟩

theorem length_exchange (id : StmtId) (new ids : List StmtId) :
    (exchange id new ids).length + ids.count id = ids.length + ids.count id * new.length := by
  induction ids with
  | nil => simp [exchange]
  | cons i ids ih =>
    rw [exchange_cons, List.length_append, List.length_cons]
    by_cases hi : i = id
    · subst hi
      rw [if_pos rfl, List.count_cons_self, Nat.succ_mul]
      omega
    · rw [if_neg hi, List.count_cons_of_ne hi, List.length_singleton]
      omega

/-- Exchanging a statement makes no difference if it is not there or stays in its place. -/
theorem exchange_eq_self_iff : exchange id new ids = ids ↔ id ∉ ids ∨ new = [id] := by
  constructor
  · intro h
    by_cases hid : id ∈ ids
    · -- The length tells that one statement was put in, and membership that it is the same.
      have hlength := length_exchange id new ids
      rw [h, Nat.add_left_cancel_iff] at hlength
      have hcount : 0 < ids.count id := List.count_pos_iff.2 hid
      have hone : new.length = 1 := Nat.eq_of_mul_eq_mul_left hcount (by omega)
      obtain ⟨y, rfl⟩ := List.length_eq_one_iff.1 hone
      rw [← h] at hid
      rcases mem_exchange.1 hid with ⟨-, hy⟩ | ⟨-, hne⟩
      · rw [List.mem_singleton.1 hy]
        exact .inr rfl
      · exact absurd rfl hne
    · exact .inl hid
  · rintro (hid | rfl)
    · exact exchange_eq_self hid
    · exact exchange_singleton id ids

theorem count_eq_one_iff (hpre : id ∉ pre) : (pre ++ id :: post).count id = 1 ↔ id ∉ post := by
  rw [List.count_append, List.count_cons_self, List.count_eq_zero.2 hpre, ← List.count_eq_zero]
  omega

/-- The check accepts an exchange of the statement if it occurred once or stays in its place. -/
theorem checkSplice_exchange_iff (h : id ∈ ids) (new : List StmtId) :
    checkSplice ids (exchange id new ids) id new = .ok () ↔ ids.count id = 1 ∨ new = [id] := by
  obtain ⟨pre, post, rfl, hpre⟩ := List.eq_append_cons_of_mem h
  have hexchange : exchange id new (pre ++ id :: post) = pre ++ (new ++ exchange id new post) := by
    rw [exchange_append, exchange_cons, if_pos rfl, exchange_eq_self hpre]
  rw [hexchange, count_eq_one_iff hpre, ← exchange_eq_self_iff, checkSplice_eq_ok_iff]
  constructor
  · rintro ⟨pre', post', hsplit, hpre', hafter⟩
    -- The first occurrence cuts the list in one way only.
    have hposition : (pre ++ id :: post).idxOf? id = some pre.length := idxOf?_append_cons hpre
    rw [hsplit, idxOf?_append_cons hpre', Option.some_inj] at hposition
    obtain ⟨rfl, hpost⟩ := List.append_inj hsplit hposition.symm
    rw [List.cons.injEq] at hpost
    rw [hpost.2]
    simpa [hpost.2] using hafter
  · intro hpost
    exact ⟨pre, post, rfl, hpre, by rw [hpost]⟩

end Exchange

/-! ## Members of a unit -/

namespace CompilationUnit

variable {ν τ ε β : Type} {u : CompilationUnit ν τ ε β} {m m' : MethodRef}

/-- The member at a place. -/
def member? (u : CompilationUnit ν τ ε β) (r : MethodRef) : Option (Member ν τ ε β) :=
  u.classes[r.cls]?.bind (·.members[r.member]?)

theorem method?_eq_some_iff {d : Method ν τ β} :
    u.method? m = some d ↔ u.member? m = some (.method d) := by
  unfold method? member?
  cases u.classes[m.cls]? with
  | none => simp
  | some c =>
    simp only [Option.bind_some]
    cases c.members[m.member]? with
    | none => simp
    | some other => cases other <;> simp

theorem member?_setBody (u : CompilationUnit ν τ ε β) (m : MethodRef) (b : β) {d : Method ν τ β}
    (h : u.member? m = some (.method d)) :
    (u.setBody m b).member? m = some (.method { d with body := some b }) := by
  rw [← method?_eq_some_iff] at h ⊢
  rw [method?_setBody, h]
  rfl

theorem member?_setBody_ne (u : CompilationUnit ν τ ε β) (b : β) (h : m' ≠ m) :
    (u.setBody m b).member? m' = u.member? m' := by
  unfold member? setBody
  rw [List.getElem?_modify]
  cases u.classes[m'.cls]? with
  | none => rfl
  | some c =>
    by_cases hcls : m.cls = m'.cls
    · -- In the class of the method it is the index among the members that differs.
      have hmember : m.member ≠ m'.member := fun he => h (by cases m; cases m'; simp_all)
      simp [hcls, hmember]
    · simp [hcls]

theorem heads_setBody (u : CompilationUnit ν τ ε β) (m : MethodRef) (b : β) :
    (u.setBody m b).classes.map (fun c => (c.name, c.span)) =
      u.classes.map fun c => (c.name, c.span) := by
  apply List.ext_getElem?
  intro i
  simp only [setBody, List.getElem?_map, List.getElem?_modify]
  cases u.classes[i]? with
  | none => rfl
  | some c => by_cases hi : m.cls = i <;> simp [hi]

end CompilationUnit

/-! ## What stays -/

/-- The programs agree in everything but the node or method that the container is, except that the
second may have more statement lists. -/
structure Program.SameBut (c : Container) (p p' : Program) : Prop where
  expr : ∀ id, p'.store.expr id = p.store.expr id
  type : ∀ id, p'.store.type id = p.store.type id
  stmt : ∀ id, c ≠ .block id → p'.store.stmt id = p.store.stmt id
  arm : ∀ id, c ≠ .arm id → p'.store.arm id = p.store.arm id
  exprList : ∀ r, p'.store.exprList r = p.store.exprList r
  typeList : ∀ r, p'.store.typeList r = p.store.typeList r
  stmtList : ∀ r ids, p.store.stmtList r = .ok ids → p'.store.stmtList r = .ok ids
  package : p'.unit.package = p.unit.package
  imports : p'.unit.imports = p.unit.imports
  span : p'.unit.span = p.unit.span
  classes : p'.unit.classes.map (fun c => (c.name, c.span)) =
    p.unit.classes.map fun c => (c.name, c.span)
  member : ∀ m, c ≠ .body m → p'.unit.member? m = p.unit.member? m

/-- The container is pointed at a slice, and keeps everything else that it is made of. -/
def Container.PointedAt (p p' : Program) (slice : Slice .stmt) : Container → Prop
  | .block id => ∃ b span, p.store.stmt id = .ok ⟨.block b, span⟩ ∧
      p'.store.stmt id = .ok ⟨.block { b with stmts := slice }, span⟩
  | .arm id => ∃ a, p.store.arm id = .ok a ∧ p'.store.arm id = .ok { a with stmts := slice }
  | .body m => ∃ d b, p.unit.member? m = some (.method d) ∧ d.body = some b ∧
      p'.unit.member? m = some (.method { d with body := some { b with stmts := slice } })

namespace Program

variable {p p' : Program} {c : Container} {ids : List StmtId} {slice : Slice .stmt}

theorem containerStmts?_of_pointedAt (h : c.PointedAt p p' slice) :
    p'.containerStmts? c = .ok (some slice) := by
  cases c with
  | block id =>
    obtain ⟨b, span, -, hnode⟩ := h
    simp [containerStmts?, hnode, bind, Except.bind, pure, Except.pure]
  | arm id =>
    obtain ⟨a, -, hnode⟩ := h
    simp [containerStmts?, hnode, bind, Except.bind, pure, Except.pure]
  | body m =>
    obtain ⟨d, b, -, -, hmember⟩ := h
    rw [← CompilationUnit.method?_eq_some_iff] at hmember
    simp [containerStmts?, hmember, pure, Except.pure]

/-! Pointing a container at a slice, and what it does to the program. -/

theorem setContainerStmts_block {id : StmtId} {b : Node.Block} {span : Span}
    (h : p.store.stmt id = .ok ⟨.block b, span⟩) (slice : Slice .stmt) :
    p.setContainerStmts (.block id) slice = .ok (.ok { p with store := { p.store with
      stmts := p.store.stmts.setIfInBounds id.index ⟨.block { b with stmts := slice }, span⟩ } }) := by
  simp [setContainerStmts, setStmtKind, h, bind, Except.bind, pure, Except.pure]

theorem setContainerStmts_arm {id : ArmId} {a : Node.Arm} (h : p.store.arm id = .ok a)
    (slice : Slice .stmt) :
    p.setContainerStmts (.arm id) slice = .ok (.ok { p with store := { p.store with
      arms := p.store.arms.setIfInBounds id.index { a with stmts := slice } } }) := by
  simp [setContainerStmts, setArmStmts, h, bind, Except.bind, pure, Except.pure]

theorem setContainerStmts_body {m : MethodRef} {d : Node.Method} {b : Node.Block}
    (h : p.unit.member? m = some (.method d)) (hb : d.body = some b) (slice : Slice .stmt) :
    p.setContainerStmts (.body m) slice =
      .ok (.ok { p with unit := p.unit.setBody m { b with stmts := slice } }) := by
  rw [← CompilationUnit.method?_eq_some_iff] at h
  simp [setContainerStmts, h, hb, pure, Except.pure]

theorem SameBut.refl (c : Container) (p : Program) : p.SameBut c p where
  expr _ := rfl
  type _ := rfl
  stmt _ _ := rfl
  arm _ _ := rfl
  exprList _ := rfl
  typeList _ := rfl
  stmtList _ _ h := h
  package := rfl
  imports := rfl
  span := rfl
  classes := rfl
  member _ _ := rfl

/-- A container that has a list can be pointed at another slice. -/
theorem exists_setContainerStmts (h : p.Lists c ids) (slice : Slice .stmt) :
    ∃ p', p.setContainerStmts c slice = .ok (.ok p') ∧ c.PointedAt p p' slice ∧ p.SameBut c p' ∧
      p'.store.stmtLists = p.store.stmtLists := by
  cases c with
  | block id =>
    obtain ⟨b, span, hnode, -⟩ := lists_block_iff.1 h
    have hlt := (Array.getElem?_eq_some_iff.1 hnode).1
    have hstmt := stmt_eq_ok_iff.2 hnode
    refine ⟨_, setContainerStmts_block hstmt slice, ⟨b, span, hstmt, ?_⟩,
      { SameBut.refl _ p with stmt := fun id' hne => ?_ }, rfl⟩
    · rw [stmt_eq_ok_iff]
      simp [hlt]
    · have hindex : id.index ≠ id'.index := fun he => hne (by cases id; cases id'; simp_all)
      simp only [stmt, Array.getElem?_setIfInBounds_ne hindex]
  | arm id =>
    obtain ⟨a, hnode, -⟩ := lists_arm_iff.1 h
    have hlt := (Array.getElem?_eq_some_iff.1 hnode).1
    have harm := arm_eq_ok_iff.2 hnode
    refine ⟨_, setContainerStmts_arm harm slice, ⟨a, harm, ?_⟩,
      { SameBut.refl _ p with arm := fun id' hne => ?_ }, rfl⟩
    · rw [arm_eq_ok_iff]
      simp [hlt]
    · have hindex : id.index ≠ id'.index := fun he => hne (by cases id; cases id'; simp_all)
      simp only [arm, Array.getElem?_setIfInBounds_ne hindex]
  | body m =>
    obtain ⟨d, b, hd, hb, -⟩ := lists_body_iff.1 h
    have hmember := CompilationUnit.method?_eq_some_iff.1 hd
    refine ⟨_, setContainerStmts_body hmember hb slice,
      ⟨d, b, hmember, hb, p.unit.member?_setBody m _ hmember⟩,
      { SameBut.refl _ p with
        classes := p.unit.heads_setBody m _
        member := fun m' hne => p.unit.member?_setBody_ne _ fun he => hne (congrArg _ he.symm) }, rfl⟩

/-- Giving a container that has a list another one succeeds and changes nothing else. -/
theorem relist_eq (h : p.Lists c ids) (new : List StmtId) :
    ∃ p', p.relist c new = .ok (.ok ⟨p.store.stmtLists.size, new.length⟩, p') ∧
      p'.store.stmtList ⟨p.store.stmtLists.size, new.length⟩ = .ok new ∧
      c.PointedAt p p' ⟨p.store.stmtLists.size, new.length⟩ ∧ p.SameBut c p' := by
  have hgrows := (allocStmtList_adds p.store new).grows
  have hlist := stmtList_allocStmtList p.store new
  -- The list is entered behind all others; then the container is pointed at it.
  have hlists : Program.Lists { p with store := (allocStmtList new p.store).2 } c ids := by
    refine Program.Lists.of_untouched (T := nothing) hgrows ?_ (fun _ _ hn => hn) h
    rfl
  obtain ⟨p', hset, hpointed, hsame, heq⟩ :=
    exists_setContainerStmts hlists (allocStmtList new p.store).1
  have hread : ∀ r, p'.store.stmtList r = (allocStmtList new p.store).2.stmtList r := by
    intro r
    rw [stmtList, stmtList, heq]
  refine ⟨p', ?_, (hread _).trans hlist, ?_, { hsame with stmtList := fun r ids hr => ?_ }⟩
  · exact bind_eq_ok_iff.2 ⟨.ok p', hset, rfl⟩
  · cases c <;> exact hpointed
  · rw [hread]
    exact hgrows.stmtList_eq hr

/-- What comes of a splice, given what relisting does: the check has the last word. -/
theorem splice_eq_of_relist {id : StmtId} {new : List StmtId} {old : Slice .stmt}
    (hold : p.containerStmts? c = .ok (some old)) (hids : p.store.stmtList old = .ok ids)
    (hrelist : p.relist c (exchange id new ids) = .ok (.ok slice, p')) :
    p.splice c id new =
      ((checkSplice ids (exchange id new ids) id new).mapError .badSplice).map
        fun _ => (.ok slice, p') := by
  simp only [splice, hold, hids, hrelist, bind, Except.bind]
  cases checkSplice ids (exchange id new ids) id new <;> rfl

/-! ## Located statements -/

/-- A statement that was located is replaced in one list, and nothing else happens. -/
theorem splice_located {path : Path} {l : Location} (h : p.locate path = .ok (.ok l))
    (replacement : List StmtId) :
    ∃ old before pre post p',
      -- The position is that of the first occurrence in the list of the container.
      path.anchor = .ok (l.stmt, l.container) ∧
      p.containerStmts? l.container = .ok (some old) ∧ p.store.stmtList old = .ok before ∧
      before = pre ++ [l.stmt] ++ post ∧ l.stmt ∉ pre ∧ l.position = pre.length ∧
      -- Every occurrence gives way to the replacement, in a list that is new.
      let after := before.flatMap fun s => if s = l.stmt then replacement else [s]
      let slice : Slice .stmt := ⟨p.store.stmtLists.size, after.length⟩
      (before.count l.stmt = 1 → after = pre ++ replacement ++ post) ∧
      p.relist l.container after = .ok (.ok slice, p') ∧
      p'.containerStmts? l.container = .ok (some slice) ∧ p'.store.stmtList slice = .ok after ∧
      -- The container keeps everything but its list, and all else stays.
      l.container.PointedAt p p' slice ∧ p.SameBut l.container p' ∧
      -- The check decides whether this is the result.
      (checkSplice before after l.stmt replacement = .ok () ↔
        before.count l.stmt = 1 ∨ replacement = [l.stmt]) ∧
      (before.count l.stmt = 1 ∨ replacement = [l.stmt] →
        p.splice l.container l.stmt replacement = .ok (.ok slice, p')) ∧
      (¬ (before.count l.stmt = 1 ∨ replacement = [l.stmt]) →
        ∃ e, p.splice l.container l.stmt replacement = .error (.badSplice e)) := by
  obtain ⟨hanchor, before, hlists, hposition⟩ := locate_eq_ok_iff.1 h
  obtain ⟨pre, post, hsplit, hpre, hlength⟩ := idxOf?_eq_some_iff.1 hposition
  have hcheck := checkSplice_exchange_iff (hsplit ▸ List.mem_append_cons_self) replacement
  obtain ⟨p', hrelist, hlist, hpointed, hsame⟩ :=
    relist_eq hlists (exchange l.stmt replacement before)
  obtain ⟨old, hold, hbefore⟩ := hlists
  have hsplice := splice_eq_of_relist hold hbefore hrelist
  refine ⟨old, before, pre, post, p', hanchor, hold, hbefore, by simp [hsplit], hpre, hlength.symm,
    ?_, hrelist, containerStmts?_of_pointedAt hpointed, hlist, hpointed, hsame, hcheck, ?_, ?_⟩
  · intro honce
    rw [hsplit, count_eq_one_iff hpre] at honce
    rw [hsplit, List.append_assoc]
    exact exchange_once hpre honce
  · intro hok
    rw [hsplice, hcheck.2 hok]
    rfl
  · intro hbad
    cases hresult : checkSplice before (exchange l.stmt replacement before) l.stmt replacement with
    | ok u => exact absurd (hcheck.1 hresult) hbad
    | error e =>
      rw [hsplice, hresult]
      exact ⟨e, rfl⟩

/-- A block in whose list one statement stands twice. -/
def twiceProgram : Program :=
  { store :=
    { stmts := #[⟨.empty, {}⟩, ⟨.breakOut, {}⟩, ⟨.block ⟨⟨0, 3⟩, ⟨20, 30⟩⟩, ⟨20, 30⟩⟩]
      stmtLists := #[⟨0⟩, ⟨1⟩, ⟨0⟩] } }

/-- Both occurrences are replaced, which the check does not accept; a replacement by itself it
accepts. -/
theorem splice_located_twice :
    let l : Location := ⟨.block ⟨2⟩, ⟨0⟩, 0⟩
    twiceProgram.locate [.stmt ⟨0⟩, .container (.block ⟨2⟩), .method ⟨0, 0⟩] = .ok (.ok l) ∧
      (∃ p', twiceProgram.relist l.container [⟨1⟩, ⟨1⟩, ⟨1⟩, ⟨1⟩, ⟨1⟩] = .ok (.ok ⟨3, 5⟩, p') ∧
        p'.store.stmtList ⟨0, 3⟩ = .ok [⟨0⟩, ⟨1⟩, ⟨0⟩] ∧ twiceProgram.SameBut l.container p') ∧
      (∃ e, twiceProgram.splice l.container l.stmt [⟨1⟩, ⟨1⟩] = .error (.badSplice e)) ∧
      ∃ slice p', twiceProgram.splice l.container l.stmt [⟨0⟩] = .ok (.ok slice, p') := by
  intro l
  have h : twiceProgram.locate [.stmt ⟨0⟩, .container (.block ⟨2⟩), .method ⟨0, 0⟩] =
    .ok (.ok l) := by rfl
  obtain ⟨old, before, -, -, p', -, hold, hbefore, -, -, -, -, hrelist, -, -, -, hsame, -, -,
    hbad⟩ := splice_located h [⟨1⟩, ⟨1⟩]
  obtain ⟨_, _, _, _, _, -, -, -, -, -, -, -, -, -, -, -, -, -, hok, -⟩ := splice_located h [⟨0⟩]
  have hlist : twiceProgram.store.stmtList ⟨0, 3⟩ = .ok [⟨0⟩, ⟨1⟩, ⟨0⟩] := rfl
  cases (hold : .ok (some ⟨0, 3⟩) = Except.ok (some old))
  cases hlist.symm.trans hbefore
  exact ⟨h, ⟨p', hrelist, hsame.stmtList _ _ hlist, hsame⟩, hbad (by decide), _, _, hok (.inr rfl)⟩

end Program

end TupleAssign
