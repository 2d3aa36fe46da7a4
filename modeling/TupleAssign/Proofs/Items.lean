import TupleAssign.Proofs.Statements
import TupleAssign.Proofs.StoredUnit
/-!
# Visiting the items of a unit

The walk over the members of a class and the classes of a unit does to the program what the rewrite
does to the trees. Bodies of methods are lists whose container is the method itself, so a visit may
change the unit; but it changes the item at hand only, and this is what lets a list of items be
visited one by one (`ItemFollows.list`).
-/

namespace TupleAssign.Desugar

open Store Rewrite

/-! ## Declarations -/

section Declaring

/-- The action declares in the open scope what the rewrite declares, and does nothing else. -/
def Declares (s : State) (m : Walk Unit) (d : PassOf Name NameSupply Unit) : Prop :=
  ∀ scopes g, Agrees { s with scopes } g →
    ∃ scopes', m { s with scopes } = .ok ((), { s with scopes := scopes' }) ∧
      Agrees { s with scopes := scopes' } (d g).2

theorem Declares.pure {s : State} : Declares s (Pure.pure ()) (Pure.pure ()) :=
  fun scopes _ h => ⟨scopes, rfl, h⟩

theorem Declares.seq {s : State} {m m' : Walk Unit} {d d' : PassOf Name NameSupply Unit}
    (h : Declares s m d) (h' : Declares s m' d') :
    Declares s (m >>= fun _ => m') (d >>= fun _ => d') := by
  intro scopes g hg
  obtain ⟨scopes₁, hrun₁, hg₁⟩ := h scopes g hg
  obtain ⟨scopes₂, hrun₂, hg₂⟩ := h' scopes₁ _ hg₁
  exact ⟨scopes₂, (run_bind hrun₁).trans hrun₂, hg₂⟩

theorem Declares.declare {s : State} {t : Tree.Ty Name} {t' : TypeId} {f : List NodeRef}
    (ht : TyAt s.program.store Verbatim t t' f) (hnodup : f.Nodup) (name : Name) (offset : Nat) :
    Declares s (Walk.declare name t' offset) (Rewrite.declare name t offset) :=
  fun scopes _ hg => ⟨scopes.declare name t' offset, rfl, hg.declare name ⟨f, ht, hnodup⟩ offset⟩

theorem params_declare {s : State} {ps : List (Tree.Param Name)} {ps' : List Node.Param}
    {f : List NodeRef}
    (h : Along (ParamAt s.program.store Verbatim) ps ps' f) (hnodup : f.Nodup) :
    Declares s (ps'.forM fun p => Walk.declare p.name p.type p.span.start)
      (ps.forM fun p => Rewrite.declare p.name p.type p.span.start) := by
  induction h with
  | nil => exact .pure
  | cons head _ ih =>
    obtain ⟨hn₁, hn₂, -⟩ := List.nodup_append.1 hnodup
    obtain ⟨hname, hspan, htype⟩ := head
    refine .seq ?_ (ih hn₂)
    simp only [hname, hspan]
    exact .declare htype hn₁ _ _

theorem fields_declare {s : State} {ds : List (Tree.Member Name)} {ds' : List Node.Member}
    {f : List NodeRef}
    (h : Along (MemberAt s.program.store Verbatim) ds ds' f) (hnodup : f.Nodup) :
    Declares s (ds'.forM Walk.declareField) (ds.forM Rewrite.declareField) := by
  induction h with
  | nil => exact .pure
  | cons head _ ih =>
    obtain ⟨hn₁, hn₂, -⟩ := List.nodup_append.1 hnodup
    refine .seq ?_ (ih hn₂)
    cases head with
    | field name _ span type _ =>
      simp only [Walk.declareField, Rewrite.declareField, name, span]
      exact .declare type (List.nodup_append.1 hn₁).1 _ _
    | method => exact .pure
    | initializer => exact .pure

end Declaring

/-! ## Items in general -/

/-- Of the nodes that were there only those in `f` may have been changed. -/
structure Moves (f : List NodeRef) (s s' : State) : Prop where
  store : s.program.store.Grows s'.program.store (· ∈ f)
  names : s.names.Keeps s'.names
  path : s'.path = s.path

theorem Moves.trans {f : List NodeRef} {s s' s'' : State} (h : Moves f s s') (h' : Moves f s' s'') :
    Moves f s s'' :=
  ⟨h.store.trans h'.store, h.names.trans h'.names, h'.path.trans h.path⟩

theorem Moves.mono {f f' : List NodeRef} {s s' : State} (h : Moves f s s') (hf : ∀ n ∈ f, n ∈ f') :
    Moves f' s s' :=
  ⟨h.store.mono fun n _ => hf n, h.names, h.path⟩

theorem Steps.moves {owner : Option Container} {f : List NodeRef} {s s' : State}
    (h : Steps owner f s s') (howner : ∀ n, ¬ Owns owner n) : Moves f s s' :=
  ⟨h.store.mono fun n _ hn => hn.resolve_right (howner n), h.names, h.path⟩

section Lists

variable {α β : Type} (R : Store → α → β → List NodeRef → Prop) (act : β × Nat → Walk Unit)
  (rewrite : α → PassOf Name NameSupply α) (unit : List β → Node.CompilationUnit)

/-- An item among others is gone through as in the rewrite, and only it is changed. The unit is
`unit` of the list of items. -/
def ItemFollows : Prop :=
  ∀ (pre post : List β) (a : α) (b : β) (f : List NodeRef) (s : State) (g : Progress),
    s.program.unit = unit (pre ++ b :: post) → s.path = [] → Agrees s g →
    R s.program.store a b f → f.Nodup →
    ∃ s' b' f', act (b, pre.length) s = .ok ((), s') ∧ Agrees s' (rewrite a g).2 ∧
      Moves f s s' ∧ s'.program.unit = unit (pre ++ b' :: post) ∧
      R s'.program.store (rewrite a g).1 b' f' ∧ Renewed s.program.store f f'

variable {R act rewrite unit}

/-- If each item is gone through as in the rewrite, so are all. -/
theorem ItemFollows.list (h : ItemFollows R act rewrite unit)
    (hgrow : ∀ {st st' : Store} {T : NodeRef → Prop} {a : α} {b : β} {f : List NodeRef},
      st.Grows st' T → R st a b f → (∀ n ∈ f, Spared T n) → R st' a b f)
    (hold : ∀ {st : Store} {a : α} {b : β} {f : List NodeRef}, R st a b f → ∀ n ∈ f, st.Old n)
    (as : List α) (bs pre : List β) (f : List NodeRef) (s : State) (g : Progress)
    (hunit : s.program.unit = unit (pre ++ bs)) (hpath : s.path = []) (hagrees : Agrees s g)
    (has : Along (R s.program.store) as bs f) (hnodup : f.Nodup) :
    ∃ s' bs' f', (bs.zipIdx pre.length).forM act s = .ok ((), s') ∧
      Agrees s' (as.mapM rewrite g).2 ∧ Moves f s s' ∧
      s'.program.unit = unit (pre ++ bs') ∧
      Along (R s'.program.store) (as.mapM rewrite g).1 bs' f' ∧
      Renewed s.program.store f f' := by
  induction as generalizing bs pre f s g with
  | nil =>
    obtain ⟨rfl, rfl⟩ := Along.nil_iff.1 has
    exact ⟨s, [], [], rfl, hagrees, ⟨.refl _ _, fun _ _ hn => hn, rfl⟩, hunit, .nil, .refl .nil⟩
  | cons a as ih =>
    obtain ⟨b, bs, f₁, f₂, rfl, rfl, head, tail⟩ := Along.cons_iff.1 has
    obtain ⟨hn₁, hn₂, hdisj⟩ := List.nodup_append.1 hnodup
    have hnot : ∀ n ∈ f₂, n ∉ f₁ := fun n hn hn' => hdisj n hn' n hn rfl
    have hold₂ : ∀ n ∈ f₂, s.program.store.Old n := fun n hn => by
      obtain ⟨_, _, _, _, _, hR, hn⟩ := tail.exists_of_mem hn
      exact hold hR n hn
    obtain ⟨s₁, b', f₁', hrun₁, hagrees₁, hmoves₁, hunit₁, hb', hrenewed₁⟩ :=
      h pre bs a b f₁ s g hunit hpath hagrees head hn₁
    -- The first item has written to its own nodes only, so those behind it are as they were.
    have tail₁ : Along (R s₁.program.store) as bs f₂ := tail.imp fun _ _ _ _ hsub hR =>
      hgrow hmoves₁.store hR fun n hn hT => absurd hT (hnot n (hsub.subset hn))
    have hunit₁' : s₁.program.unit = unit ((pre ++ [b']) ++ bs) := by
      rw [hunit₁, List.append_assoc]
      rfl
    obtain ⟨s₂, bs', f₂', hrun₂, hagrees₂, hmoves₂, hunit₂, hbs', hrenewed₂⟩ :=
      ih bs (pre ++ [b']) f₂ s₁ _ hunit₁' (hmoves₁.path.trans hpath) hagrees₁ tail₁ hn₂
    -- It stays as it is afterwards, also where its nodes are new ones.
    have hb'' := hgrow hmoves₂.store hb' fun n hn hT =>
      (hrenewed₁.mem n hn).elim (fun hmem => absurd hmem (hnot n hT))
        fun hfresh => absurd (hold₂ n hT) hfresh
    rw [List.mapM_cons]
    refine ⟨s₂, b' :: bs', f₁' ++ f₂', ?_, hagrees₂, ?_, ?_, .cons hb'' hbs', ?_⟩
    · rw [List.length_append] at hrun₂
      exact (run_bind hrun₁).trans hrun₂
    · exact (hmoves₁.mono fun n => List.mem_append_left _).trans
        (hmoves₂.mono fun n => List.mem_append_right _)
    · rw [hunit₂, List.append_assoc]
      rfl
    · exact Renewed.append hnodup hold₂ hrenewed₁ hmoves₁.store (hold hb') hrenewed₂

end Lists

/-! ## Bodies -/

section Bodies

variable {r : Resolver Name} {s : State} {g : Progress}

/-- The statements of a body are gone through in a scope of their own. -/
theorem body_visited {owner : Option Container}
    {inMethod : Bool} {slice : Slice .stmt} {ids : List StmtId} {f : List NodeRef}
    {ss : List (Tree.Stmt Name)} (hlist : ListAt owner inMethod s [] ids f) (hagrees : Agrees s g)
    (hslice : s.program.store.stmtList slice = .ok ids)
    (hss : Along (StmtAt s.program.store Verbatim) ss ids f) (hnodup : f.Nodup) :
    let res := Rewrite.inScope (stmts r inMethod ss) g
    ∃ s' new f', Walk.inScope (Walk.stmts r slice) s = .ok ((), s') ∧ Agrees s' res.2 ∧
      Steps owner f s s' ∧ (∀ c, owner = some c → s'.program.Lists c new) ∧
      (owner = none → new = ids) ∧
      Along (StmtAt s'.program.store Verbatim) res.1 new f' ∧
      Renewed s.program.store f f' := by
  have hlevels : sortCount .stmt f ≤ s.program.store.stmts.size + 1 :=
    Nat.le_succ_of_le (sortCount_le_count hnodup (Along.old (along_stmts_iff.2 hss)))
  obtain ⟨s', new, f', hrun, hagrees', hsteps, hlists, hnone, hnew, hrenewed⟩ :=
    stmts_follow (r := r) ss _ owner inMethod { s with scopes := s.scopes.push } _ [] ids f
      ⟨hlist.lists, hlist.outside, hlist.path, hlist.method, hlist.done, hlist.apart⟩ hagrees.push
      hss hnodup hlevels
  have hrun' : Walk.stmts r slice { s with scopes := s.scopes.push } = .ok ((), s') := by
    have hread : Walk.read (·.stmtList slice) { s with scopes := s.scopes.push } =
        .ok (ids, { s with scopes := s.scopes.push }) := run_read hslice
    have hget : (get : Walk State) { s with scopes := s.scopes.push } =
        .ok ({ s with scopes := s.scopes.push }, { s with scopes := s.scopes.push }) := rfl
    rw [Walk.stmts, run_bind hget, run_bind hread, hrun]
  exact ⟨_, new, f', run_inScope hrun', hagrees'.pop, hsteps.congr rfl rfl rfl rfl hsteps.path,
    hlists, hnone, hnew, hrenewed⟩

end Bodies

/-! ## Members -/

section Members

variable {r : Resolver Name}

/-- The initializer of a field has no statement around it, so nothing in it is replaced. -/
theorem field_visited {f : Tree.Field Name} {f' : Node.Field}
    {fi : List NodeRef} {s : State} {g : Progress} (hpath : s.path = []) (hagrees : Agrees s g)
    (hinit : Along (ExprAt s.program.store Verbatim) f.init.toList f'.init.toList fi)
    (hnodup : fi.Nodup) :
    ∃ s', (f'.init.forM fun e => Walk.withFrame .fieldInit (Walk.expr r e)) s = .ok ((), s') ∧
      Agrees s' (Rewrite.member r (.field f) g).2 ∧ Steps none [] s s' := by
  obtain ⟨type, name, init, isStatic, span⟩ := f
  obtain ⟨type', name', init', isStatic', span'⟩ := f'
  cases init' with
  | none =>
    cases init with
    | some _ => cases hinit
    | none => exact ⟨s, rfl, hagrees, .of_eq _ _ rfl rfl rfl⟩
  | some id =>
    cases init with
    | none => cases hinit
    | some e =>
      have he := Along.single_iff.1 hinit
      let k : Spot := {
        id := ⟨0⟩, owner := none, before := [], behind := [], anchor := .error .noStatement,
        inMethod := false, base := s.program.store, nodes := fi }
      have hk : k.Sound := {
        before := by simp [k]
        behind := by simp [k]
        mem := by simp [k]
        old := he.old
        apart := by
          rintro n ⟨c, hc, -⟩
          cases hc }
      obtain ⟨s', hrun, hat, hsteps⟩ := expr_visits (r := r) hk he hnodup (fun _ hn => hn)
        { s with path := .fieldInit :: s.path } g .fixed
        ⟨hagrees.setPath _, ⟨_, rfl⟩, .refl _ _⟩ ⟨by rw [hpath]; rfl, rfl⟩ (.refl _ _)
      refine ⟨_, run_withFrame hrun, ?_, hsteps.congr rfl rfl rfl rfl (by simp [hsteps.path])⟩
      rw [Rewrite.member, Rewrite.expr?, unpackings?_some]
      exact hat.agrees.setPath _

theorem initializer_visited {b : Tree.Body Name}
    {b' : Node.Block} {f : List NodeRef} {s : State} {g : Progress} (hagrees : Agrees s g)
    (hb : BodyAt s.program.store Verbatim b b' f) (hnodup : f.Nodup) :
    ∃ s' f', Walk.withFrame .initializer (Walk.inScope (Walk.stmts r b'.stmts)) s =
        .ok ((), s') ∧
      Agrees s' (Rewrite.body r false b g).2 ∧ Steps none f s s' ∧
      BodyAt s'.program.store Verbatim (Rewrite.body r false b g).1 b' f' ∧
      Renewed s.program.store f f' := by
  obtain ⟨hspan, ids, hids, hss⟩ := hb
  have hlist : ListAt none false { s with path := .initializer :: s.path } [] ids f := {
    lists := by simp
    outside := fun _ => rfl
    path := by simp
    method := rfl
    done := by simp
    apart := by
      rintro n ⟨c, hc, -⟩
      cases hc }
  obtain ⟨s', new, f', hrun, hagrees', hsteps, -, hnone, hnew, hrenewed⟩ :=
    body_visited (r := r) hlist (hagrees.setPath _) hids hss hnodup
  obtain rfl := hnone rfl
  refine ⟨_, f', run_withFrame hrun, hagrees'.setPath _,
    hsteps.congr rfl rfl rfl rfl (by simp [hsteps.path]), ⟨hspan, new, ?_, hnew⟩, hrenewed⟩
  exact hsteps.store.stmtList_eq hids

theorem modify_length_append {α : Type} (f : α → α) (pre : List α) (a : α) (post : List α) :
    (pre ++ a :: post).modify pre.length f = pre ++ f a :: post := by
  induction pre with
  | nil => rfl
  | cons p pre ih => simpa using ih

/-- A unit, open at the members of one class. -/
def unitAround (u : Node.CompilationUnit) (cpre cpost : List Node.Class) (c : Node.Class)
    (members : List Node.Member) : Node.CompilationUnit :=
  { u with classes := cpre ++ { c with members } :: cpost }

section Around

variable {u : Node.CompilationUnit} {cpre cpost : List Node.Class} {c : Node.Class}
  {mpre mpost : List Node.Member} {d : Node.Method}

theorem method?_unitAround :
    (unitAround u cpre cpost c (mpre ++ .method d :: mpost)).method? ⟨cpre.length, mpre.length⟩ =
      some d := by
  simp [unitAround, CompilationUnit.method?]

theorem setBody_unitAround (b : Node.Block) :
    (unitAround u cpre cpost c (mpre ++ .method d :: mpost)).setBody ⟨cpre.length, mpre.length⟩ b =
      unitAround u cpre cpost c (mpre ++ .method { d with body := some b } :: mpost) := by
  simp only [unitAround, CompilationUnit.setBody, modify_length_append]

/-- The body of a method is the list of a container, the method itself. -/
theorem methodBody_visited {b : Tree.Body Name}
    {b' : Node.Block} {f : List NodeRef} {s : State} {g : Progress} {path : Path}
    (hunit : s.program.unit = unitAround u cpre cpost c (mpre ++ .method d :: mpost))
    (hbody : d.body = some b') (hpath : s.path = .method ⟨cpre.length, mpre.length⟩ :: path)
    (hagrees : Agrees s g) (hb : BodyAt s.program.store Verbatim b b' f) (hnodup : f.Nodup) :
    ∃ s' b'' f', Walk.withFrame (.container (.body ⟨cpre.length, mpre.length⟩))
        (Walk.inScope (Walk.stmts r b'.stmts)) s = .ok ((), s') ∧
      Agrees s' (Rewrite.body r true b g).2 ∧ Moves f s s' ∧
      s'.program.unit =
        unitAround u cpre cpost c (mpre ++ .method { d with body := some b'' } :: mpost) ∧
      BodyAt s'.program.store Verbatim (Rewrite.body r true b g).1 b'' f' ∧
      Renewed s.program.store f f' := by
  obtain ⟨hspan, ids, hids, hss⟩ := hb
  have hmethod : s.program.unit.method? ⟨cpre.length, mpre.length⟩ = some d :=
    hunit ▸ method?_unitAround
  have howner : ∀ n, ¬ Owns (some (.body ⟨cpre.length, mpre.length⟩)) n := by
    rintro n ⟨c, hc, hn⟩
    cases hc
    cases hn
  have hlist : ListAt (some (.body ⟨cpre.length, mpre.length⟩)) true
      { s with path := .container (.body ⟨cpre.length, mpre.length⟩) :: s.path } [] ids f := {
    lists := by
      rintro _ ⟨⟩
      exact Program.lists_body_iff.2 ⟨d, b', hmethod, hbody, hids⟩
    outside := by simp
    path := by
      rintro _ ⟨⟩ id
      rfl
    method := by
      rw [hpath]
      rfl
    done := by simp
    apart := fun n hn => (howner n hn).elim }
  obtain ⟨s', new, f', hrun, hagrees', hsteps, hlists, -, hnew, hrenewed⟩ :=
    body_visited (r := r) hlist (hagrees.setPath _) hids hss hnodup
  -- All that has changed in the unit is the list of this body.
  obtain ⟨stmts, hunit'⟩ := hsteps.shape _ rfl d b' hmethod hbody
  have hunit'' := hunit'.trans (congrArg (fun u : Node.CompilationUnit => u.setBody _ _) hunit)
  rw [setBody_unitAround] at hunit''
  obtain ⟨d', b'', hd', hb'', hids'⟩ := Program.lists_body_iff.1 (hlists _ rfl)
  rw [hunit'', method?_unitAround] at hd'
  cases hd'
  cases hb''
  have hsteps' := (hsteps.moves howner)
  refine ⟨_, { b' with stmts }, f', run_withFrame hrun, hagrees'.setPath _,
    ⟨hsteps'.store, hsteps'.names, by simp [hsteps'.path]⟩, hunit'', ⟨hspan, new, hids', hnew⟩,
    hrenewed⟩

theorem methodBody?_visited {b : Option (Tree.Body Name)}
    {f : List NodeRef} {s : State} {g : Progress} {path : Path}
    (hunit : s.program.unit = unitAround u cpre cpost c (mpre ++ .method d :: mpost))
    (hpath : s.path = .method ⟨cpre.length, mpre.length⟩ :: path) (hagrees : Agrees s g)
    (hb : Along (BodyAt s.program.store Verbatim) b.toList d.body.toList f) (hnodup : f.Nodup) :
    ∃ s' b' f', (d.body.forM fun b => Walk.withFrame (.container (.body ⟨cpre.length, mpre.length⟩))
        (Walk.inScope (Walk.stmts r b.stmts))) s = .ok ((), s') ∧
      Agrees s' (Rewrite.body? r b g).2 ∧ Moves f s s' ∧
      s'.program.unit =
        unitAround u cpre cpost c (mpre ++ .method { d with body := b' } :: mpost) ∧
      Along (BodyAt s'.program.store Verbatim) (Rewrite.body? r b g).1.toList
        b'.toList f' ∧
      Renewed s.program.store f f' := by
  cases hbody : d.body with
  | none =>
    rw [hbody] at hb
    cases b with
    | some _ => cases hb
    | none =>
      obtain ⟨-, rfl⟩ := Along.nil_iff.1 hb
      exact ⟨s, none, [], rfl, hagrees, ⟨.refl _ _, fun _ _ hn => hn, rfl⟩, hbody ▸ hunit, .nil,
        .refl hnodup⟩
  | some b' =>
    rw [hbody] at hb
    cases b with
    | none => cases hb
    | some b =>
      obtain ⟨s', b'', f', hrun, hagrees', hmoves, hunit', hnew, hrenewed⟩ :=
        methodBody_visited (r := r) hunit hbody hpath hagrees (Along.single_iff.1 hb) hnodup
      exact ⟨s', some b'', f', hrun, hagrees', hmoves, hunit', .single hnew, hrenewed⟩

end Around

theorem run_method {m : MethodRef} {d : Node.Method} {s s₁ s₂ : State}
    (hparams : (d.params.forM fun p => Walk.declare p.name p.type p.span.start)
      { s with path := .method m :: s.path, scopes := s.scopes.push } = .ok ((), s₁))
    (hbody : (d.body.forM fun b => Walk.withFrame (.container (.body m))
      (Walk.inScope (Walk.stmts r b.stmts))) s₁ = .ok ((), s₂)) :
    Walk.method r m d s =
      .ok ((), { s₂ with scopes := s₂.scopes.pop, path := s₂.path.tail }) :=
  run_withFrame (run_inScope ((run_bind hparams).trans hbody))

theorem method_visited {u : Node.CompilationUnit} {cpre cpost : List Node.Class} {c : Node.Class}
    {mpre mpost : List Node.Member} {t : Tree.Method Name} {d : Node.Method} {f : List NodeRef}
    {s : State} {g : Progress}
    (hunit : s.program.unit = unitAround u cpre cpost c (mpre ++ .method d :: mpost))
    (hagrees : Agrees s g) (h : MemberAt s.program.store Verbatim (.method t) (.method d) f)
    (hnodup : f.Nodup) :
    ∃ s' d' f', Walk.method r ⟨cpre.length, mpre.length⟩ d s = .ok ((), s') ∧
      Agrees s' (Rewrite.member r (.method t) g).2 ∧ Moves f s s' ∧
      s'.program.unit = unitAround u cpre cpost c (mpre ++ d' :: mpost) ∧
      MemberAt s'.program.store Verbatim (Rewrite.member r (.method t) g).1 d' f' ∧
      Renewed s.program.store f f' := by
  have hold := h.old
  cases h with
  | @method _ _ fr fps fb name isStatic span result params body =>
    have hnpb : (fps ++ fb).Nodup := (List.nodup_append.1 hnodup).2.1
    obtain ⟨hnp, hnb, -⟩ := List.nodup_append.1 hnpb
    obtain ⟨scopes, hdeclare, hagrees₁⟩ := params_declare (s := { s with
      path := .method ⟨cpre.length, mpre.length⟩ :: s.path }) params hnp _ _
      (hagrees.setPath _).push
    obtain ⟨s', b', fb', hrun, hagrees', hmoves, hunit', hbody, hrenewed⟩ :=
      methodBody?_visited (r := r) (s := { s with
        path := .method ⟨cpre.length, mpre.length⟩ :: s.path, scopes }) hunit rfl hagrees₁ body
        hnb
    refine ⟨{ s' with scopes := s'.scopes.pop, path := s'.path.tail },
      .method { d with body := b' }, fr ++ (fps ++ fb'), run_method hdeclare hrun,
      hagrees'.pop.setPath _, ?_, hunit', ?_, ?_⟩
    · exact Moves.mono ⟨hmoves.store, hmoves.names, by simp [hmoves.path]⟩ fun n hn => by simp [hn]
    · -- The parts before the body are of sorts that nothing is written to.
      refine .method name isStatic span (result.imp ?_) (params.imp ?_) hbody
      · exact fun _ _ _ _ _ ht => ht.grow_inert hmoves.store (fun _ _ hn => hn) rfl
      · exact fun _ _ _ _ _ hp => hp.grow hmoves.store (fun _ _ hn => hn) fun n hn _ =>
          hp.2.2.sort_of_inert rfl n hn
    · have hrest := Renewed.append_left hnpb (fun n hn => hold n (List.mem_append_right fr hn))
        hrenewed
      exact .append_left hnodup hold hrest

/-- Each member of a class is gone through as in the rewrite. -/
theorem member_follows (u : Node.CompilationUnit) (cpre cpost : List Node.Class) (c : Node.Class) :
    ItemFollows (MemberAt · Verbatim) (fun (d, i) => Walk.member r ⟨cpre.length, i⟩ d)
      (Rewrite.member r) (unitAround u cpre cpost c) := by
  intro pre post t d f s g hunit hpath hagrees h hnodup
  cases h with
  | @field t d ft fi name isStatic span type init =>
    obtain ⟨hnt, hni, -⟩ := List.nodup_append.1 hnodup
    obtain ⟨s', hrun, hagrees', hsteps⟩ :=
      field_visited (r := r) hpath hagrees init hni
    have hmoves := hsteps.moves fun n ⟨c, hc, _⟩ => by cases hc
    refine ⟨s', .field d, ft ++ fi, hrun, hagrees', hmoves.mono (by simp), ?_, ?_, .refl hnodup⟩
    · rw [hsteps.unit (by simp), hunit]
    · exact MemberAt.grow hmoves.store (fun _ _ hn => hn) (.field name isStatic span type init)
        fun n _ hn => by simp at hn
  | method name isStatic span result params body =>
    exact method_visited hunit hagrees (.method name isStatic span result params body) hnodup
  | @initializer t d fb isStatic span body =>
    obtain ⟨s', f', hrun, hagrees', hsteps, hbody, hrenewed⟩ :=
      initializer_visited (r := r) hagrees body hnodup
    have hmoves := hsteps.moves fun n ⟨c, hc, _⟩ => by cases hc
    exact ⟨s', .initializer d, f', hrun, hagrees', hmoves, (hsteps.unit (by simp)).trans hunit,
      .initializer isStatic span hbody, hrenewed⟩

/-- Each class of a unit is gone through as in the rewrite. -/
theorem class_follows (u : Node.CompilationUnit) :
    ItemFollows (ClassAt · Verbatim) (fun (c, i) => Walk.cls r i c) (Rewrite.cls r)
      (fun classes => { u with classes }) := by
  intro pre post t c f s g hunit hpath hagrees h hnodup
  obtain ⟨hname, hspan, hmembers⟩ := h
  obtain ⟨scopes, hdeclare, hagrees₁⟩ := fields_declare hmembers hnodup _ _ hagrees.push
  obtain ⟨s', members, f', hrun, hagrees', hmoves, hunit', hmembers', hrenewed⟩ :=
    (member_follows (r := r) u pre post c).list (fun hg h => h.grow hg fun _ _ hn => hn)
      MemberAt.old t.members c.members [] f { s with scopes } _ hunit hpath hagrees₁ hmembers hnodup
  refine ⟨{ s' with scopes := s'.scopes.pop }, { c with members }, f', ?_, hagrees'.pop,
    ⟨hmoves.store, hmoves.names, hmoves.path⟩, hunit', ⟨hname, hspan, hmembers'⟩, hrenewed⟩
  exact run_inScope ((run_bind hdeclare).trans hrun)

end Members

end TupleAssign.Desugar
