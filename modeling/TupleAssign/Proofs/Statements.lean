import TupleAssign.Proofs.Visiting
/-!
# Visiting statements

The walk over a statement, a statement list and the arms of a switch does to the store what the
rewrite does to the trees. The three statements are proved together, along the tree: what is visited
is stored again afterwards, rewritten, in nodes it had before or in new ones (`Renewed`), and all that
may have changed elsewhere is the list of the container around it.
-/

namespace TupleAssign.Desugar

open Store Rewrite

/-! ## Renewed nodes -/

/-- Distinct nodes, each of which is one of `f` or has been added to `st`. -/
structure Renewed (st : Store) (f f' : List NodeRef) : Prop where
  nodup : f'.Nodup
  mem : ∀ n ∈ f', n ∈ f ∨ ¬ st.Old n

namespace Renewed

variable {st st' : Store} {T : NodeRef → Prop} {f f' f₁ f₂ f₁' f₂' : List NodeRef}

theorem refl (h : f.Nodup) : Renewed st f f := ⟨h, fun _ hn => .inl hn⟩

theorem of_grows (hg : st.Grows st' T) (h : Renewed st' f f') : Renewed st f f' :=
  ⟨h.nodup, fun n hn => (h.mem n hn).imp_right fun hnew hold => hnew (hg.old hold)⟩

theorem cons {n : NodeRef} (h : Renewed st f f') (hn : n ∉ f) (hold : st.Old n) :
    Renewed st (n :: f) (n :: f') where
  nodup := List.nodup_cons.2 ⟨fun hmem => (h.mem n hmem).elim hn fun hnew => hnew hold, h.nodup⟩
  mem m hm := by
    rcases List.mem_cons.1 hm with rfl | hm
    · exact .inl List.mem_cons_self
    · exact (h.mem m hm).imp_left (List.mem_cons_of_mem n)

/-- What is renewed first stays apart from what is renewed later. -/
theorem append (hf : (f₁ ++ f₂).Nodup) (hold : ∀ n ∈ f₂, st.Old n) (h₁ : Renewed st f₁ f₁')
    (hg : st.Grows st' T) (hold' : ∀ n ∈ f₁', st'.Old n) (h₂ : Renewed st' f₂ f₂') :
    Renewed st (f₁ ++ f₂) (f₁' ++ f₂') where
  nodup := by
    refine List.nodup_append.2 ⟨h₁.nodup, h₂.nodup, ?_⟩
    rintro n hn _ hn' rfl
    rcases h₂.mem n hn' with hmem | hnew
    · rcases h₁.mem n hn with hmem' | hnew
      · exact (List.nodup_append.1 hf).2.2 n hmem' n hmem rfl
      · exact hnew (hold n hmem)
    · exact hnew (hold' n hn)
  mem n hn := by
    rcases List.mem_append.1 hn with hn | hn
    · exact (h₁.mem n hn).imp_left (List.mem_append_left f₂)
    · exact ((h₂.of_grows hg).mem n hn).imp_left (List.mem_append_right f₁)

/-- Behind nodes that stay, the rest may be renewed. -/
theorem append_left (hf : (f₁ ++ f).Nodup) (hold : ∀ n ∈ f₁ ++ f, st.Old n) (h : Renewed st f f') :
    Renewed st (f₁ ++ f) (f₁ ++ f') := by
  obtain ⟨hold₁, hold₂⟩ := List.forall_mem_append.1 hold
  exact append hf hold₂ (.refl (List.nodup_append.1 hf).1) (.refl st nothing) hold₁ h

theorem behind {n : NodeRef} (hnodup : (n :: (f₁ ++ f)).Nodup)
    (hold : ∀ m ∈ n :: (f₁ ++ f), st.Old m) (h : Renewed st f f') :
    Renewed st (n :: (f₁ ++ f)) (n :: (f₁ ++ f')) := by
  obtain ⟨hn, hf⟩ := List.nodup_cons.1 hnodup
  obtain ⟨hself, hparts⟩ := List.forall_mem_cons.1 hold
  exact cons (append_left hf hparts h) hn hself

/-- Later changes elsewhere spare what has been renewed. -/
theorem spared {owner : Option Container} (h : Renewed st f f') (hf₂ : ∀ n ∈ f₂, n ∉ f ∧ st.Old n)
    (howner : ∀ n, Owns owner n → n ∉ f ∧ st.Old n) :
    ∀ n ∈ f', Spared (fun n => n ∈ f₂ ∨ Owns owner n) n := by
  intro n hn hT
  obtain ⟨hnot, hold⟩ : n ∉ f ∧ st.Old n := hT.elim (hf₂ n) (howner n)
  exact absurd hold ((h.mem n hn).resolve_left hnot)

end Renewed

/-! ## Expressions of a statement -/

section Exprs

variable {r : Resolver Name} {k : Spot} {st : Store}

theorem expr_visits (hk : k.Sound) {e : Tree.Expr Name}
    {id : ExprId} {f : List NodeRef} (h : ExprAt st Verbatim e id f) (hnodup : f.Nodup)
    (hf : ∀ n ∈ f, n ∈ k.nodes) : Visits k st (Walk.expr r id) (unpackings r e) := by
  intro s g place hat hpath hst
  have hlevels : sortCount .expr f ≤ s.program.store.exprs.size + 1 :=
    Nat.le_succ_of_le (sortCount_le_count hnodup fun n hn => hst.old (h.old n hn))
  exact exprTo_visits hk e _ h ⟨hnodup, hf, hlevels⟩ s g place hat hpath hst

theorem optional_visits (hk : k.Sound)
    {o : Option (Tree.Expr Name)} {o' : Option ExprId} {f : List NodeRef}
    (h : Along (ExprAt st Verbatim) o.toList o'.toList f) (hnodup : f.Nodup)
    (hf : ∀ n ∈ f, n ∈ k.nodes) :
    Visits k st (o'.forM (Walk.expr r)) (unpackings? r o) := by
  cases o' with
  | none =>
    cases o with
    | none => exact .pure
    | some e => cases h
  | some id =>
    cases o with
    | none => cases h
    | some e =>
      rw [unpackings?_some]
      exact expr_visits hk (Along.single_iff.1 h) hnodup hf

end Exprs

/-! ## In the midst of a statement -/

section

variable {k : Spot} {s s' : State} {g : Progress} {place : Place}

/-- The visit is inside the statement, at a part that is not an expression. -/
structure Amid (k : Spot) (s : State) (g : Progress) (place : Place) : Prop extends
    At k s g place where
  onPath : OnPath k s.path
  inner : ∃ path, s.path = .stmt k.id :: path

theorem Amid.push (h : Amid k s g place) :
    Amid k { s with scopes := s.scopes.push } { g with scopes := g.scopes.push } place :=
  ⟨⟨h.agrees.push, h.place, h.grown⟩, h.onPath, h.inner⟩

theorem Amid.pop (h : Amid k s g place) :
    Amid k { s with scopes := s.scopes.pop } { g with scopes := g.scopes.pop } place :=
  ⟨⟨h.agrees.pop, h.place, h.grown⟩, h.onPath, h.inner⟩

/-- Visiting expressions leaves all nodes of the statement alone. -/
theorem Amid.visit {st : Store} {m : Walk Unit} {us : List (Unpacking Name)} (h : Amid k s g place)
    (hm : Visits k st m us) (hst : st.Grows s.program.store (fun _ => True)) :
    ∃ s', m s = .ok ((), s') ∧ Amid k s' (us.foldlM (handle k.inMethod) place g).2
        (us.foldlM (handle k.inMethod) place g).1 ∧ Steps k.owner [] s s' := by
  obtain ⟨s', hrun, hat, hsteps⟩ := hm s g place h.toAt h.onPath hst
  exact ⟨s', hrun, ⟨hat, hsteps.path ▸ h.onPath, hsteps.path ▸ h.inner⟩, hsteps⟩

/-- After changes inside the statement the visit goes on. -/
theorem Amid.inside (hk : k.Sound) (h : Amid k s g place) {owner : Option Container}
    {f : List NodeRef} (hs : Steps owner f s s') (hf : ∀ n ∈ f, n ∈ k.nodes)
    (hin : ∀ n, Owns owner n → n ∈ k.nodes) (hbody : ∀ m, owner ≠ some (.body m)) {g' : Progress}
    (hg : Agrees s' g') : Amid k s' g' place where
  agrees := hg
  place := h.place.inside hk hs hf hin hbody
  grown := h.grown.trans (hs.store.mono fun _ _ _ => trivial)
  onPath := hs.path ▸ h.onPath
  inner := hs.path ▸ h.inner

/-- Trees whose nodes belong to the statement are where they were. -/
theorem Steps.keeps (hk : k.Sound) {f f₁ : List NodeRef} (h : Steps k.owner f s s')
    {t : Tree.Any Name} {n : NodeRef} (hst : Stored s.program.store Verbatim t n f₁)
    (hf : ∀ n ∈ f₁, n ∈ k.nodes) (hdisj : ∀ n ∈ f₁, n ∉ f) :
    Stored s'.program.store Verbatim t n f₁ :=
  hst.grow h.store (fun _ _ hn => hn) fun n hn hT =>
    absurd (hf n hn) (hT.elim (fun h => absurd h (hdisj n hn)) fun h => (hk.apart n h).1)

end

/-! ## What is to be shown -/

section

variable (r : Resolver Name)

/-- The action has gone through the statement as the rewrite has. -/
def StmtVisited (k : Spot) (m : Walk Unit) (s : State) (res : (Place × Tree.Stmt Name) × Progress) :
    Prop :=
  ∃ s', m s = .ok ((), s') ∧ At k s' res.2 res.1.1 ∧ Steps k.owner k.nodes s s' ∧
    ∃ f', StmtAt s'.program.store Verbatim res.1.2 k.id f' ∧ Renewed k.base k.nodes f'

/-- The statement is gone through alike wherever it stands. -/
def StmtFollows (t : Tree.Stmt Name) : Prop :=
  ∀ (levels : Nat) (k : Spot) (s : State) (g : Progress) (place : Place), k.Sound →
    StmtAt k.base Verbatim t k.id k.nodes → k.nodes.Nodup → sortCount .stmt k.nodes ≤ levels →
    s.program.store = k.base → OnPath k (.stmt k.id :: s.path) → At k s g place →
    StmtVisited k (Walk.stmtTo r levels k.id) s (stmt r k.inMethod place t g)

/-- A statement list is being visited: some statements have been gone through, what has come of them
is at the front of the list; the rest is as it was. -/
structure ListAt (owner : Option Container) (inMethod : Bool) (s : State) (done rest : List StmtId)
    (f : List NodeRef) : Prop where
  lists : ∀ c, owner = some c → s.program.Lists c (done ++ rest)
  outside : owner = none → inMethod = false
  path : ∀ c, owner = some c → ∀ id, Path.anchor (.stmt id :: s.path) = .ok (id, c)
  method : s.path.enclosingMethod?.isSome = inMethod
  done : ∀ id ∈ rest, id ∉ done
  apart : ∀ n, Owns owner n → n ∉ f ∧ s.program.store.Old n

/-- The list is gone through alike in whatever container it is. -/
def ListFollows (ss : List (Tree.Stmt Name)) : Prop :=
  ∀ (levels : Nat) (owner : Option Container) (inMethod : Bool) (s : State) (g : Progress)
    (done ids : List StmtId) (f : List NodeRef), ListAt owner inMethod s done ids f →
    Agrees s g → Along (StmtAt s.program.store Verbatim) ss ids f → f.Nodup →
    sortCount .stmt f ≤ levels →
    ∃ s' new f', ids.forM (Walk.stmtTo r levels) s = .ok ((), s') ∧
      Agrees s' (stmts r inMethod ss g).2 ∧ Steps owner f s s' ∧
      (∀ c, owner = some c → s'.program.Lists c (done ++ new)) ∧ (owner = none → new = ids) ∧
      Along (StmtAt s'.program.store Verbatim) (stmts r inMethod ss g).1 new f' ∧
      Renewed s.program.store f f'

/-- Visits one arm of a switch. -/
def armTo (levels : Nat) (id : ArmId) : Walk Unit := do
  (← Walk.read (·.arm id)).label.forM (Walk.expr r)
  let stmts := (← Walk.read (·.arm id)).stmts
  Walk.withFrame (.container (.arm id)) do
    (← Walk.read (·.stmtList stmts)).forM (Walk.stmtTo r levels)

/-- The arms of a switch are gone through alike. -/
def ArmsFollow (as : List (Tree.Arm Name)) : Prop :=
  ∀ (levels : Nat) (k : Spot) (s : State) (g : Progress) (place : Place) (ids : List ArmId)
    (f : List NodeRef), k.Sound → Amid k s g place → Along (ArmAt s.program.store Verbatim) as ids f →
    f.Nodup → (∀ n ∈ f, n ∈ k.nodes) → sortCount .stmt f ≤ levels →
    ∃ s', ids.forM (armTo r levels) s = .ok ((), s') ∧
      Amid k s' (arms r k.inMethod place as g).2 (arms r k.inMethod place as g).1.1 ∧
      Steps k.owner f s s' ∧ ∃ f', Along (ArmAt s'.program.store Verbatim)
        (arms r k.inMethod place as g).1.2 ids f' ∧ Renewed s.program.store f f'

end

/-! ## One statement -/

section Forms

variable {r : Resolver Name} {k : Spot} {s : State} {g : Progress}
  {place : Place}

/-- A visit that changes no node of the statement leaves it where it was. -/
theorem StmtVisited.of_unchanged (hk : k.Sound) {t : Tree.Stmt Name} {m : Walk Unit}
    (ht : StmtAt s.program.store Verbatim t k.id k.nodes) (hnodup : k.nodes.Nodup) {s' : State}
    {g' : Progress} {place' : Place} (hrun : m s = .ok ((), s')) (hat : At k s' g' place')
    (hsteps : Steps k.owner [] s s') : StmtVisited k m s ((place', t), g') := by
  refine ⟨s', hrun, hat, hsteps.mono (by simp), k.nodes, ?_, .refl hnodup⟩
  exact (hsteps.keeps hk ht (fun _ hn => hn) (by simp)).grow (.refl _ nothing) (fun _ _ hn => hn)
    fun _ _ hn => hn.elim

/-- The statement and its frame: what is done inside it is all there is. -/
theorem StmtVisited.frame {levels : Nat} {node : Node.Stmt}
    {res : (Place × Tree.Stmt Name) × Progress} (hst : s.program.store = k.base) (hpath : OnPath k (.stmt k.id :: s.path))
    (hat : At k s g place) {m : Node.Stmt → Walk Unit}
    (hnode : k.base.stmts[k.id.index]? = some node)
    (hto : Walk.stmtTo r (levels + 1) k.id =
      Walk.withFrame (.stmt k.id) (Walk.read (·.stmt k.id) >>= m))
    (h : ∀ s, s.program.store = k.base → Amid k s g place → StmtVisited k (m node) s res) :
    StmtVisited k (Walk.stmtTo r (levels + 1) k.id) s res := by
  obtain ⟨s', hrun, hat', hsteps, f', hf', hrenewed⟩ := h { s with path := .stmt k.id :: s.path }
    hst ⟨⟨hat.agrees.setPath _, hat.place, hat.grown⟩, hpath, _, rfl⟩
  have hread : Walk.read (·.stmt k.id) { s with path := .stmt k.id :: s.path } =
      .ok (node, { s with path := .stmt k.id :: s.path }) :=
    run_read (stmt_eq_ok_iff.2 (hst ▸ hnode))
  refine ⟨{ s' with path := s'.path.tail }, ?_, ⟨hat'.agrees.setPath _, hat'.place, hat'.grown⟩,
    hsteps.congr rfl rfl rfl rfl (by simp [hsteps.path]), f', hf', hrenewed⟩
  rw [hto]
  exact run_withFrame ((run_bind hread).trans hrun)

theorem expr_visited (hk : k.Sound) {span : Span}
    {e : Tree.Expr Name} {e' : ExprId} {f : List NodeRef} (hst : s.program.store = k.base)
    (h : StmtAt k.base Verbatim (.expr span e) k.id k.nodes) (hnodup : k.nodes.Nodup)
    (he : ExprAt k.base Verbatim e e' f) (hnodes : k.nodes = k.id.ref :: f)
    (ha : Amid k s g place) :
    StmtVisited k (Walk.expr r e') s (stmt r k.inMethod place (.expr span e) g) := by
  have hn : f.Nodup := (List.nodup_cons.1 (hnodes ▸ hnodup)).2
  obtain ⟨s', hrun, ha', hsteps⟩ := ha.visit
    (expr_visits hk he hn fun n hn => hnodes ▸ List.mem_cons_of_mem _ hn) (hst ▸ .refl _ _)
  rw [Rewrite.stmt]
  exact .of_unchanged hk (hst ▸ h) hnodup hrun ha'.toAt hsteps

theorem returnWith_visited (hk : k.Sound) {span : Span} {v : Option (Tree.Expr Name)}
    {v' : Option ExprId} {f : List NodeRef} (hst : s.program.store = k.base)
    (h : StmtAt k.base Verbatim (.returnWith span v) k.id k.nodes) (hnodup : k.nodes.Nodup)
    (hv : Along (ExprAt k.base Verbatim) v.toList v'.toList f) (hnodes : k.nodes = k.id.ref :: f)
    (ha : Amid k s g place) :
    StmtVisited k (v'.forM (Walk.expr r)) s
      (stmt r k.inMethod place (.returnWith span v) g) := by
  have hn : f.Nodup := (List.nodup_cons.1 (hnodes ▸ hnodup)).2
  obtain ⟨s', hrun, ha', hsteps⟩ := ha.visit
    (optional_visits hk hv hn fun n hn => hnodes ▸ List.mem_cons_of_mem _ hn) (hst ▸ .refl _ _)
  rw [Rewrite.stmt]
  exact .of_unchanged hk (hst ▸ h) hnodup hrun ha'.toAt hsteps

/-- A local variable is in sight from its own initializer on. -/
theorem localVar_visited (hk : k.Sound) {span : Span} {t : Tree.Ty Name} {x : Name}
    {init : Option (Tree.Expr Name)} {isFinal : Bool} {t' : TypeId} {init' : Option ExprId}
    {ft fi : List NodeRef} (hst : s.program.store = k.base)
    (h : StmtAt k.base Verbatim (.localVar span t x init isFinal) k.id k.nodes)
    (hnodup : k.nodes.Nodup) (ht : TyAt k.base Verbatim t t' ft)
    (hi : Along (ExprAt k.base Verbatim) init.toList init'.toList fi)
    (hnodes : k.nodes = k.id.ref :: (ft ++ fi)) (ha : Amid k s g place) :
    StmtVisited k (do
        Walk.declare x t' span.start
        init'.forM (Walk.expr r)) s
      (stmt r k.inMethod place (.localVar span t x init isFinal) g) := by
  obtain ⟨-, hn⟩ := List.nodup_cons.1 (hnodes ▸ hnodup)
  obtain ⟨hnt, hni, -⟩ := List.nodup_append.1 hn
  have ha₁ : Amid k { s with scopes := s.scopes.declare x t' span.start }
      { g with scopes := g.scopes.declare x t span.start } place := by
    have hdeclared : DeclaredAt s.program.store Verbatim t t' := ⟨ft, hst ▸ ht, hnt⟩
    exact ⟨⟨ha.agrees.declare x hdeclared _, ha.place, ha.grown⟩, ha.onPath, ha.inner⟩
  obtain ⟨s', hrun, ha', hsteps⟩ := ha₁.visit
    (optional_visits hk hi hni fun n hn => hnodes ▸ List.mem_cons_of_mem _
      (List.mem_append_right _ hn)) (hst ▸ .refl _ _)
  rw [Rewrite.stmt]
  exact .of_unchanged hk (hst ▸ h) hnodup hrun ha'.toAt
    (hsteps.congr rfl rfl rfl rfl hsteps.path)

/-! ### Branches -/

/-- What has been renewed is still there after later changes to other nodes of the statement. -/
theorem Steps.keeps_renewed (hk : k.Sound) {st : Store} {s' : State} {f f₂ f' : List NodeRef}
    (hg : k.base.Grows st (fun _ => True)) (hrenewed : Renewed st f f') (h : Steps k.owner f₂ s s')
    (hf : ∀ n ∈ f, n ∈ k.nodes) (hf₂ : ∀ n ∈ f₂, n ∈ k.nodes ∧ n ∉ f) {t : Tree.Any Name}
    {n : NodeRef} (hst : Stored s.program.store Verbatim t n f') :
    Stored s'.program.store Verbatim t n f' := by
  refine hst.grow h.store (fun _ _ hn => hn) (hrenewed.spared (fun n hn => ?_) fun n hn => ?_)
  · exact ⟨(hf₂ n hn).2, hg.old (hk.old n (hf₂ n hn).1)⟩
  · exact ⟨fun hmem => (hk.apart n hn).1 (hf n hmem), hg.old (hk.apart n hn).2⟩

/-- An unbraced statement inside a statement is gone through in a scope of its own, and nothing in it
is replaced from outside. -/
theorem branch_visited (hk : k.Sound) (ha : Amid k s g place) {t : Tree.Stmt Name}
    (ih : StmtFollows r t) {levels : Nat} {id : StmtId} {f : List NodeRef}
    (ht : StmtAt s.program.store Verbatim t id f) (hnodup : f.Nodup) (hf : ∀ n ∈ f, n ∈ k.nodes)
    (hlevels : sortCount .stmt f ≤ levels) :
    let res := Rewrite.inScope (stmt r k.inMethod .fixed t) g
    ∃ s', Walk.inScope (Walk.stmtTo r levels id) s = .ok ((), s') ∧
      Amid k s' res.2 place ∧ Steps k.owner f s s' ∧
      ∃ f', StmtAt s'.program.store Verbatim res.1.2 id f' ∧
        Renewed s.program.store f f' := by
  -- The branch is in no list, so its spot has no owner and nothing to be sound about but its nodes.
  let kb : Spot := {
    id, owner := none, before := [], behind := [], anchor := .error .notAContainer,
    inMethod := k.inMethod, base := s.program.store, nodes := f }
  have hkb : kb.Sound := {
    before := by simp [kb]
    behind := by simp [kb]
    mem := fun _ _ => ht.head_mem
    old := ht.old
    apart := by
      rintro n ⟨c, hc, -⟩
      cases hc }
  obtain ⟨path, hpath⟩ := ha.inner
  have honPath : OnPath kb (.stmt id :: s.path) := ⟨by rw [hpath]; rfl, ha.onPath.2⟩
  obtain ⟨s', hrun, hat, hsteps, f', hf', hrenewed⟩ := ih levels kb
    { s with scopes := s.scopes.push } { g with scopes := g.scopes.push } .fixed hkb ht hnodup hlevels
    rfl honPath ⟨ha.agrees.push, ⟨_, rfl⟩, .refl _ _⟩
  have hin : ∀ n, Owns none n → n ∈ k.nodes := fun n ⟨c, hc, _⟩ => by cases hc
  have hsteps' : Steps none f s { s' with scopes := s'.scopes.pop } :=
    hsteps.congr rfl rfl rfl rfl hsteps.path
  refine ⟨_, run_inScope hrun, ?_, ?_, f', hf', hrenewed⟩
  · exact ha.inside hk hsteps' hf hin (by simp) hat.agrees.pop
  · exact hsteps'.inside (fun _ hn => hn) (fun n ⟨c, hc, _⟩ => by cases hc) (by simp)
      fun n hn hmem => (hk.apart n hn).1 (hf n hmem)

/-- A condition, and a branch behind it. -/
theorem guarded_visited (hk : k.Sound)
    (ha : Amid k s g place) (hst : s.program.store = k.base) {c : Tree.Expr Name} {b : Tree.Stmt Name}
    (ih : StmtFollows r b) {levels : Nat} {c' : ExprId} {b' : StmtId}
    {fc fb : List NodeRef} (hc : ExprAt k.base Verbatim c c' fc) (hb : StmtAt k.base Verbatim b b' fb)
    (hnodup : (fc ++ fb).Nodup) (hf : ∀ n ∈ fc ++ fb, n ∈ k.nodes)
    (hlevels : sortCount .stmt fb ≤ levels) :
    let cond := Rewrite.expr r k.inMethod place c g
    let res := Rewrite.inScope (stmt r k.inMethod .fixed b) cond.2
    ∃ s₁ s', Walk.expr r c' s = .ok ((), s₁) ∧
      Walk.inScope (Walk.stmtTo r levels b') s₁ = .ok ((), s') ∧
      Amid k s' res.2 cond.1 ∧ Steps k.owner fb s s' ∧
      ∃ fb', StmtAt s'.program.store Verbatim res.1.2 b' fb' ∧ Renewed k.base fb fb' := by
  obtain ⟨hnc, hnb, -⟩ := List.nodup_append.1 hnodup
  have hfb : ∀ n ∈ fb, n ∈ k.nodes := fun n hn => hf n (List.mem_append_right _ hn)
  obtain ⟨s₁, hrun₁, ha₁, hsteps₁⟩ := ha.visit
    (expr_visits hk hc hnc fun n hn => hf n (List.mem_append_left _ hn)) (hst ▸ .refl _ _)
  have hb₁ := hsteps₁.keeps hk (hst ▸ hb) hfb (by simp)
  obtain ⟨s', hrun, ha', hsteps, fb', hfb', hrenewed⟩ :=
    branch_visited hk ha₁ ih hb₁ hnb hfb hlevels
  exact ⟨s₁, s', hrun₁, hrun, ha', (hsteps₁.mono (by simp)).trans hsteps, fb', hfb',
    hrenewed.of_grows ha₁.grown⟩

/-- The condition of a statement and its own node are never changed from inside. -/
theorem guard_kept (hk : k.Sound) {s' : State} {g' : Progress} {place' : Place} {f : List NodeRef}
    (ha : Amid k s' g' place') (hst : s.program.store = k.base) (hsteps : Steps k.owner f s s')
    {node : Node.Stmt} {c : Tree.Expr Name} {c' : ExprId} {fc : List NodeRef}
    (hnode : k.base.stmts[k.id.index]? = some node) (hc : ExprAt k.base Verbatim c c' fc)
    (hid : k.id.ref ∉ f) :
    s'.program.store.stmts[k.id.index]? = some node ∧
      ExprAt s'.program.store Verbatim c c' fc := by
  refine ⟨hsteps.store.stmt_eq (hst ▸ hnode) fun hT => ?_, ?_⟩
  · exact hT.elim hid fun ⟨c, hc, hn⟩ => (hk.apart _ ⟨c, hc, hn⟩).1 (hk.mem c hc)
  · exact hc.grow_inert ha.grown (fun _ _ hn => hn) rfl

theorem whileLoop_visited (hk : k.Sound)
    (ha : Amid k s g place) (hst : s.program.store = k.base) {span : Span} {c : Tree.Expr Name}
    {b : Tree.Stmt Name} (ih : StmtFollows r b) {levels : Nat} {c' : ExprId} {b' : StmtId}
    {fc fb : List NodeRef} (hnode : k.base.stmts[k.id.index]? = some ⟨.whileLoop c' b', span⟩)
    (hc : ExprAt k.base Verbatim c c' fc) (hb : StmtAt k.base Verbatim b b' fb)
    (hnodup : k.nodes.Nodup) (hnodes : k.nodes = k.id.ref :: (fc ++ fb))
    (hlevels : sortCount .stmt (fc ++ fb) ≤ levels) :
    StmtVisited k (do
        Walk.expr r c'
        Walk.inScope (Walk.stmtTo r levels b')) s
      (stmt r k.inMethod place (.whileLoop span c b) g) := by
  obtain ⟨hid, hn⟩ := List.nodup_cons.1 (hnodes ▸ hnodup)
  have hf : ∀ n ∈ fc ++ fb, n ∈ k.nodes := fun n hn => hnodes ▸ List.mem_cons_of_mem _ hn
  rw [sortCount_append] at hlevels
  obtain ⟨s₁, s', hrun₁, hrun, ha', hsteps, fb', hb', hrenewed⟩ :=
    guarded_visited hk ha hst ih hc hb hn hf (Nat.le_trans (Nat.le_add_left _ _) hlevels)
  rw [List.mem_append, not_or] at hid
  obtain ⟨hnode', hc'⟩ := guard_kept hk ha' hst hsteps hnode hc hid.2
  rw [Rewrite.stmt]
  refine ⟨s', by rw [run_bind hrun₁, hrun], ha'.toAt, hsteps.mono fun n hn => hf n (by simp [hn]),
    _, stmtAt_whileLoop_iff.2 ⟨c', b', fc, fb', hnode', hc', hb', rfl⟩, ?_⟩
  rw [hnodes]
  exact .behind (hnodes ▸ hnodup) (hnodes ▸ hk.old) hrenewed

/-- The branch behind `else`, if there is one. -/
def branch? {ν σ : Type} [DecidableEq ν] [Supply σ ν] (r : Resolver ν) (inMethod : Bool) :
    Option (Tree.Stmt ν) → PassOf ν σ (Option (Tree.Stmt ν))
  | none => return none
  | some e => do
    let (_, e) ← Rewrite.inScope (stmt r inMethod .fixed e)
    return some e

theorem stmt_ifElse {ν σ : Type} [DecidableEq ν] [Supply σ ν] (r : Resolver ν) (inMethod : Bool)
    (place : Rewrite.Place ν) (span : Span) (c : Tree.Expr ν) (t : Tree.Stmt ν)
    (e : Option (Tree.Stmt ν)) : stmt r inMethod place (.ifElse span c t e) = (do
      let place ← Rewrite.expr r inMethod place c
      let (_, t) ← Rewrite.inScope (stmt r inMethod .fixed t)
      let e ← branch? r inMethod e
      return (place, .ifElse span c t e) : PassOf ν σ _) := by
  cases e with
  | none =>
    rw [Rewrite.stmt]
    rfl
  | some e =>
    rw [Rewrite.stmt]
    rfl

theorem branch?_visited (hk : k.Sound) (ha : Amid k s g place) {e : Option (Tree.Stmt Name)}
    (ih : ∀ e' ∈ e, StmtFollows r e') {levels : Nat} {e' : Option StmtId}
    {f : List NodeRef} (he : Along (StmtAt s.program.store Verbatim) e.toList e'.toList f)
    (hnodup : f.Nodup) (hf : ∀ n ∈ f, n ∈ k.nodes) (hlevels : sortCount .stmt f ≤ levels) :
    let res := branch? r k.inMethod e g
    ∃ s', (e'.forM fun e' => Walk.inScope (Walk.stmtTo r levels e')) s = .ok ((), s') ∧
      Amid k s' res.2 place ∧ Steps k.owner f s s' ∧
      ∃ f', Along (StmtAt s'.program.store Verbatim) res.1.toList e'.toList f' ∧
        Renewed s.program.store f f' := by
  cases e' with
  | none =>
    cases e with
    | some _ => cases he
    | none =>
      obtain ⟨-, rfl⟩ := Along.nil_iff.1 he
      exact ⟨s, rfl, ha, .of_eq _ _ rfl rfl rfl, [], .nil, .refl .nil⟩
  | some e' =>
    cases e with
    | none => cases he
    | some e =>
      obtain ⟨s', hrun, ha', hsteps, f', he', hrenewed⟩ :=
        branch_visited hk ha (ih e rfl) (Along.single_iff.1 he) hnodup hf hlevels
      exact ⟨s', hrun, ha', hsteps, f', .single he', hrenewed⟩

theorem ifElse_visited (hk : k.Sound)
    (ha : Amid k s g place) (hst : s.program.store = k.base) {span : Span} {c : Tree.Expr Name}
    {t : Tree.Stmt Name} {e : Option (Tree.Stmt Name)} (iht : StmtFollows r t)
    (ihe : ∀ e' ∈ e, StmtFollows r e') {levels : Nat} {c' : ExprId} {t' : StmtId}
    {e' : Option StmtId} {fc ft fe : List NodeRef}
    (hnode : k.base.stmts[k.id.index]? = some ⟨.ifElse c' t' e', span⟩)
    (hc : ExprAt k.base Verbatim c c' fc) (ht : StmtAt k.base Verbatim t t' ft)
    (he : Along (StmtAt k.base Verbatim) e.toList e'.toList fe) (hnodup : k.nodes.Nodup)
    (hnodes : k.nodes = k.id.ref :: (fc ++ (ft ++ fe)))
    (hlevels : sortCount .stmt (fc ++ (ft ++ fe)) ≤ levels) :
    StmtVisited k (do
        Walk.expr r c'
        Walk.inScope (Walk.stmtTo r levels t')
        e'.forM fun e' => Walk.inScope (Walk.stmtTo r levels e')) s
      (stmt r k.inMethod place (.ifElse span c t e) g) := by
  obtain ⟨hid, hn⟩ := List.nodup_cons.1 (hnodes ▸ hnodup)
  have hf : ∀ n ∈ fc ++ (ft ++ fe), n ∈ k.nodes := fun n hn => hnodes ▸ List.mem_cons_of_mem _ hn
  have hfe : ∀ n ∈ fe, n ∈ k.nodes := fun n hn => hf n (by simp [hn])
  obtain ⟨-, hnte, -⟩ := List.nodup_append.1 hn
  obtain ⟨-, hne, hdisj⟩ := List.nodup_append.1 hnte
  have hnot : ∀ n ∈ fe, n ∉ ft := fun n hn hn' => hdisj n hn' n hn rfl
  rw [sortCount_append, sortCount_append] at hlevels
  have hlt : sortCount .stmt ft ≤ levels := by omega
  have hle : sortCount .stmt fe ≤ levels := by omega
  -- The first branch leaves the second one as it was, and the other way round.
  obtain ⟨s₁, s₂, hrun₁, hrun₂, ha₂, hsteps₂, ft', ht', hrenewed⟩ :=
    guarded_visited hk ha hst iht hc ht (hn.sublist (by simp))
      (fun n hn => hf n (by grind)) hlt
  have he₂ : Along (StmtAt s₂.program.store Verbatim) e.toList e'.toList fe :=
    he.imp fun _ _ _ _ hsub hse => hsteps₂.keeps hk (hst ▸ hse)
      (fun n hn => hfe n (hsub.subset hn)) fun n hn => hnot n (hsub.subset hn)
  obtain ⟨s₃, hrun₃, ha₃, hsteps₃, fe', he', hrenewed'⟩ :=
    branch?_visited hk ha₂ ihe he₂ hne hfe hle
  have ht'' := Steps.keeps_renewed hk (.refl k.base _) hrenewed hsteps₃
    (fun n hn => hf n (by simp [hn])) (fun n hn => ⟨hfe n hn, hnot n hn⟩) ht'
  have hsteps : Steps k.owner (ft ++ fe) s s₃ :=
    (hsteps₂.mono fun n hn => by simp [hn]).trans (hsteps₃.mono fun n hn => by simp [hn])
  have hid' : k.id.ref ∉ ft ++ fe := fun hmem => hid (List.mem_append_right _ hmem)
  obtain ⟨hnode', hc'⟩ := guard_kept hk ha₃ hst hsteps hnode hc hid'
  rw [stmt_ifElse]
  refine ⟨s₃, ?_, ha₃.toAt, hsteps.mono fun n hn => hf n (List.mem_append_right _ hn), _,
    stmtAt_ifElse_iff.2 ⟨c', t', e', fc, ft', fe', hnode', hc', ht'', he', rfl⟩, ?_⟩
  · rw [run_bind hrun₁, run_bind hrun₂]
    exact hrun₃
  · rw [hnodes]
    have hold : ∀ n ∈ fe, k.base.Old n := fun n hn => hk.old n (hfe n hn)
    exact .behind (hnodes ▸ hnodup) (hnodes ▸ hk.old)
      (.append hnte hold hrenewed ha₂.grown ht'.old hrenewed')

/-! ### Lists -/

/-- A list that belongs to a node of the statement is gone through as a list of its own. -/
theorem inner_visited (hk : k.Sound) (ha : Amid k s g place) {ss : List (Tree.Stmt Name)}
    (ih : ListFollows r ss) {levels : Nat} {c : Container} {n : NodeRef}
    {slice : Slice .stmt} {ids : List StmtId} {f : List NodeRef} (hc : c.node? = some n)
    (hn : n ∈ k.nodes) (hnf : n ∉ f) (hlists : s.program.Lists c ids)
    (hslice : s.program.store.stmtList slice = .ok ids)
    (h : Along (StmtAt s.program.store Verbatim) ss ids f) (hnodup : f.Nodup)
    (hf : ∀ n ∈ f, n ∈ k.nodes) (hlevels : sortCount .stmt f ≤ levels) :
    let res := stmts r k.inMethod ss g
    ∃ s' new f', Walk.withFrame (.container c) (do
        (← Walk.read (·.stmtList slice)).forM (Walk.stmtTo r levels)) s = .ok ((), s') ∧
      Amid k s' res.2 place ∧ Steps k.owner (n :: f) s s' ∧ c.SameShape s.program s'.program ∧
      s'.program.Lists c new ∧ Along (StmtAt s'.program.store Verbatim) res.1 new f' ∧
      Renewed s.program.store f f' := by
  have howns : ∀ m, Owns (some c) m → m = n := by
    rintro m ⟨c', hc', hm⟩
    cases hc'
    exact Option.some.inj (hm.symm.trans hc)
  have hbody : ∀ m, (some c : Option Container) ≠ some (.body m) := by
    rintro m hm
    cases hm
    cases hc
  -- At the start of the list nothing has been gone through.
  have hat : ListAt (some c) k.inMethod { s with path := .container c :: s.path } [] ids f := {
    lists := fun c' hc' => by cases hc'; exact hlists
    outside := by simp
    path := fun c' hc' id => by cases hc'; rfl
    method := ha.onPath.2
    done := by simp
    apart := fun m hm => by
      rw [howns m hm]
      exact ⟨hnf, ha.grown.old (hk.old n hn)⟩ }
  obtain ⟨s', new, f', hrun, hagrees, hsteps, hlists', -, hstored, hrenewed⟩ :=
    ih levels (some c) k.inMethod _ g [] ids f hat (ha.agrees.setPath _) h hnodup hlevels
  have hsteps' : Steps (some c) f s { s' with path := s'.path.tail } :=
    hsteps.congr rfl rfl rfl rfl (by simp [hsteps.path])
  have hrun' : Walk.withFrame (.container c) (do
      (← Walk.read (·.stmtList slice)).forM (Walk.stmtTo r levels)) s =
      .ok ((), { s' with path := s'.path.tail }) :=
    run_withFrame ((run_bind (run_read hslice)).trans hrun)
  refine ⟨_, new, f', hrun', ?_, ?_, hsteps'.shape c rfl, hlists' c rfl, hstored, hrenewed⟩
  · exact ha.inside hk hsteps' hf (fun m hm => howns m hm ▸ hn) hbody (hagrees.setPath _)
  · refine hsteps'.inside (fun m hm => List.mem_cons_of_mem n hm) (fun m hm => ?_) hbody ?_
    · exact howns m hm ▸ List.mem_cons_self
    · intro m hm hmem
      refine (hk.apart m hm).1 ?_
      rcases List.mem_cons.1 hmem with rfl | hmem
      · exact hn
      · exact hf m hmem

/-- It does not matter in which order a frame and a scope are opened. -/
theorem withFrame_inScope (frame : Frame) (m : Walk Unit) :
    Walk.withFrame frame (Walk.inScope m) = Walk.inScope (Walk.withFrame frame m) := by
  funext s
  simp only [Walk.withFrame, Walk.inScope, bind, StateT.bind, modify, modifyGet,
    MonadStateOf.modifyGet, StateT.modifyGet, pure, Except.pure, Except.bind]
  cases m { s with scopes := s.scopes.push, path := frame :: s.path } <;> rfl

theorem block_visited (hk : k.Sound) (ha : Amid k s g place) (hst : s.program.store = k.base)
    {span : Span} {ss : List (Tree.Stmt Name)} (ih : ListFollows r ss) {levels : Nat}
    {b : Node.Block} {ids : List StmtId} {f : List NodeRef}
    (hnode : k.base.stmts[k.id.index]? = some ⟨.block b, span⟩)
    (hids : k.base.stmtList b.stmts = .ok ids) (hss : Along (StmtAt k.base Verbatim) ss ids f)
    (hnodup : k.nodes.Nodup) (hnodes : k.nodes = k.id.ref :: f)
    (hlevels : sortCount .stmt f ≤ levels) :
    StmtVisited k (Walk.withFrame (.container (.block k.id)) do
        Walk.inScope do
          (← Walk.read (·.stmtList b.stmts)).forM (Walk.stmtTo r levels)) s
      (stmt r k.inMethod place (.block span ss) g) := by
  have hself : k.id.ref ∈ k.nodes := by simp [hnodes]
  obtain ⟨hid, hn⟩ := List.nodup_cons.1 (hnodes ▸ hnodup)
  have hnode' : s.program.store.stmts[k.id.index]? = some ⟨.block b, span⟩ := hst ▸ hnode
  have hids' : s.program.store.stmtList b.stmts = .ok ids := hst ▸ hids
  obtain ⟨s', new, f', hrun, ha', hsteps, hshape, hlists, hstored, hrenewed⟩ :=
    inner_visited (c := .block k.id) (n := k.id.ref) hk ha.push ih rfl hself hid
      (Program.lists_block_iff.2 ⟨b, span, hnode', hids'⟩) hids' (hst ▸ hss) hn
      (fun n hn => hnodes ▸ List.mem_cons_of_mem _ hn) hlevels
  -- The node is still that of a block; only its list has been exchanged.
  obtain ⟨b₁, hb₁⟩ := hshape b span hnode'
  obtain ⟨b₂, span₂, hb₂, hnew⟩ := Program.lists_block_iff.1 hlists
  cases hb₁.symm.trans hb₂
  rw [withFrame_inScope, Rewrite.stmt]
  refine ⟨_, run_inScope hrun, ha'.pop.toAt, ?_, _,
    stmtAt_block_iff.2 ⟨b₁, new, f', hb₁, hnew, hstored, rfl⟩, ?_⟩
  · rw [hnodes]
    exact hsteps.congr rfl rfl rfl rfl hsteps.path
  · rw [hnodes]
    exact Renewed.cons (hst ▸ hrenewed) hid (hk.old _ hself)

/-! ### Arms -/

theorem arm_visited (hk : k.Sound)
    (ha : Amid k s g place) {label : Option (Tree.Expr Name)} {ss : List (Tree.Stmt Name)}
    (ih : ListFollows r ss) {levels : Nat} {id : ArmId} {f : List NodeRef}
    (h : ArmAt s.program.store Verbatim (.mk label ss) id f) (hnodup : f.Nodup)
    (hf : ∀ n ∈ f, n ∈ k.nodes) (hlevels : sortCount .stmt f ≤ levels) :
    let labelled := Rewrite.expr? r k.inMethod place label g
    let res := stmts r k.inMethod ss labelled.2
    ∃ s', armTo r levels id s = .ok ((), s') ∧ Amid k s' res.2 labelled.1 ∧
      Steps k.owner f s s' ∧
      ∃ f', ArmAt s'.program.store Verbatim (.mk label res.1) id f' ∧
        Renewed s.program.store f f' := by
  have hold := h.old
  obtain ⟨a, ids, fl, fs, hnode, hids, hl, hss, rfl⟩ := armAt_iff.1 h
  obtain ⟨hid, hn⟩ := List.nodup_cons.1 hnodup
  obtain ⟨hnl, hns, -⟩ := List.nodup_append.1 hn
  rw [List.mem_append, not_or] at hid
  have hfs : ∀ n ∈ fs, n ∈ k.nodes := fun n hn => hf n (by simp [hn])
  have hidk : id.ref ∈ k.nodes := hf _ List.mem_cons_self
  -- The label may have replaced the switch, but the arm itself is as it was.
  obtain ⟨s₁, hrun₁, ha₁, hsteps₁⟩ := ha.visit
    (optional_visits hk hl hnl fun n hn => hf n (by simp [hn])) (.refl _ _)
  have hnode₁ := hsteps₁.store.arm_eq hnode fun hT =>
    hT.elim (by simp) fun h => (hk.apart _ h).1 hidk
  have hids₁ := hsteps₁.store.stmtList_eq hids
  have hss₁ : Along (StmtAt s₁.program.store Verbatim) ss ids fs := hss.imp fun _ _ _ _ hsub hst =>
    hsteps₁.keeps hk hst (fun n hn => hfs n (hsub.subset hn)) (by simp)
  have hlevels' : sortCount .stmt fs ≤ levels := by
    rw [sortCount_cons, sortCount_append] at hlevels
    omega
  obtain ⟨s', new, f', hrun, ha', hsteps, hshape, hlists, hstored, hrenewed⟩ :=
    inner_visited (c := .arm id) (n := id.ref) hk ha₁ ih rfl hidk hid.2
      (Program.lists_arm_iff.2 ⟨a, hnode₁, hids₁⟩) hids₁ hss₁ hns hfs hlevels'
  -- Of the arm only its list has been exchanged.
  obtain ⟨stmts', hnode'⟩ := hshape a hnode₁
  obtain ⟨a', hnode'', hnew⟩ := Program.lists_arm_iff.1 hlists
  cases hnode'.symm.trans hnode''
  have hg₁ : s.program.store.Grows s₁.program.store (fun _ => True) :=
    hsteps₁.store.mono fun _ _ _ => trivial
  have hg' : s₁.program.store.Grows s'.program.store (fun _ => True) :=
    hsteps.store.mono fun _ _ _ => trivial
  have hl' : Along (ExprAt s'.program.store Verbatim) label.toList a.label.toList fl :=
    hl.imp fun _ _ _ _ _ he => he.grow_inert (hg₁.trans hg') (fun _ _ hn => hn) rfl
  refine ⟨s', ?_, ha', ?_, _, armAt_iff.2 ⟨_, new, fl, f', hnode', hnew, hl', hstored, rfl⟩, ?_⟩
  · rw [armTo, run_bind (run_read (arm_eq_ok_iff.2 hnode)), run_bind hrun₁,
      run_bind (run_read (arm_eq_ok_iff.2 hnode₁)), hrun]
  · refine (hsteps₁.mono (by simp)).trans (hsteps.mono fun n hn => ?_)
    rcases List.mem_cons.1 hn with rfl | hn <;> simp [*]
  · exact .behind hnodup hold (hrenewed.of_grows hg₁)

theorem arms_visited {label : Option (Tree.Expr Name)}
    {ss : List (Tree.Stmt Name)} {as : List (Tree.Arm Name)} (ih : ListFollows r ss)
    (ihs : ArmsFollow r as) : ArmsFollow r (.mk label ss :: as) := by
  intro levels k s g place ids f hk ha h hnodup hf hlevels
  obtain ⟨id, ids, f₁, f₂, rfl, rfl, head, tail⟩ := Along.cons_iff.1 h
  obtain ⟨hn₁, hn₂, hdisj⟩ := List.nodup_append.1 hnodup
  have hf₁ : ∀ n ∈ f₁, n ∈ k.nodes := fun n hn => hf n (List.mem_append_left _ hn)
  have hf₂ : ∀ n ∈ f₂, n ∈ k.nodes := fun n hn => hf n (List.mem_append_right _ hn)
  have hnot : ∀ n ∈ f₂, n ∉ f₁ := fun n hn hn' => hdisj n hn' n hn rfl
  rw [sortCount_append] at hlevels
  obtain ⟨s₁, hrun₁, ha₁, hsteps₁, f₁', harm, hrenewed₁⟩ :=
    arm_visited hk ha ih head hn₁ hf₁ (Nat.le_trans (Nat.le_add_right _ _) hlevels)
  have tail₁ : Along (ArmAt s₁.program.store Verbatim) as ids f₂ := tail.imp fun _ _ _ _ hsub hst =>
    hsteps₁.keeps hk hst (fun n hn => hf₂ n (hsub.subset hn)) fun n hn => hnot n (hsub.subset hn)
  obtain ⟨s₂, hrun₂, ha₂, hsteps₂, f₂', harms, hrenewed₂⟩ :=
    ihs levels k s₁ _ _ ids f₂ hk ha₁ tail₁ hn₂ hf₂ (Nat.le_trans (Nat.le_add_left _ _) hlevels)
  have harm' := Steps.keeps_renewed hk ha.grown hrenewed₁ hsteps₂ hf₁
    (fun n hn => ⟨hf₂ n hn, hnot n hn⟩) harm
  rw [Rewrite.arms]
  refine ⟨s₂, ?_, ha₂, ?_, f₁' ++ f₂', .cons harm' harms, ?_⟩
  · exact (run_bind hrun₁).trans hrun₂
  · exact (hsteps₁.mono fun n => List.mem_append_left _).trans
      (hsteps₂.mono fun n => List.mem_append_right _)
  · exact Renewed.append hnodup (fun n hn => ha.grown.old (hk.old n (hf₂ n hn))) hrenewed₁
      hsteps₁.store harm.old hrenewed₂

theorem switch_visited (hk : k.Sound)
    (ha : Amid k s g place) (hst : s.program.store = k.base) {span : Span} {sel : Tree.Expr Name}
    {as : List (Tree.Arm Name)} (ih : ArmsFollow r as) {levels : Nat} {sel' : ExprId}
    {slice : Slice .arm} {ids : List ArmId} {fs fa : List NodeRef}
    (hnode : k.base.stmts[k.id.index]? = some ⟨.switch sel' slice, span⟩)
    (hids : slice.ids slice.len = .ok ids) (hsel : ExprAt k.base Verbatim sel sel' fs)
    (harms : Along (ArmAt k.base Verbatim) as ids fa) (hnodup : k.nodes.Nodup)
    (hnodes : k.nodes = k.id.ref :: (fs ++ fa)) (hlevels : sortCount .stmt (fs ++ fa) ≤ levels) :
    StmtVisited k (do
        Walk.expr r sel'
        Walk.inScope do
          (← liftExcept (slice.ids slice.len)).forM (armTo r levels)) s
      (stmt r k.inMethod place (.switch span sel as) g) := by
  obtain ⟨hid, hn⟩ := List.nodup_cons.1 (hnodes ▸ hnodup)
  have hf : ∀ n ∈ fs ++ fa, n ∈ k.nodes := fun n hn => hnodes ▸ List.mem_cons_of_mem _ hn
  obtain ⟨hns, hna, -⟩ := List.nodup_append.1 hn
  have hfa : ∀ n ∈ fa, n ∈ k.nodes := fun n hn => hf n (List.mem_append_right _ hn)
  rw [List.mem_append, not_or] at hid
  rw [sortCount_append] at hlevels
  obtain ⟨s₁, hrun₁, ha₁, hsteps₁⟩ := ha.visit
    (expr_visits hk hsel hns fun n hn => hf n (List.mem_append_left _ hn)) (hst ▸ .refl _ _)
  have harms₁ : Along (ArmAt s₁.program.store Verbatim) as ids fa := harms.imp fun _ _ _ _ hsub har =>
    hsteps₁.keeps hk (hst ▸ har) (fun n hn => hfa n (hsub.subset hn)) (by simp)
  obtain ⟨s₂, hrun₂, ha₂, hsteps₂, fa', harms₂, hrenewed⟩ :=
    ih levels k _ _ _ ids fa hk ha₁.push harms₁ hna hfa (Nat.le_trans (Nat.le_add_left _ _) hlevels)
  have hlift : (do
      (← liftExcept (slice.ids slice.len)).forM (armTo r levels) : Walk Unit)
      { s₁ with scopes := s₁.scopes.push } = .ok ((), s₂) := by
    rw [hids]
    exact hrun₂
  have hsteps : Steps k.owner fa s { s₂ with scopes := s₂.scopes.pop } :=
    (hsteps₁.mono (by simp)).trans (hsteps₂.congr rfl rfl rfl rfl hsteps₂.path)
  obtain ⟨hnode', hsel'⟩ := guard_kept hk ha₂.pop hst hsteps hnode hsel hid.2
  rw [Rewrite.stmt]
  refine ⟨_, (run_bind hrun₁).trans (run_inScope hlift), ha₂.pop.toAt,
    hsteps.mono hfa, _,
    stmtAt_switch_iff.2 ⟨sel', slice, ids, fs, fa', hnode', hids, hsel', harms₂, rfl⟩, ?_⟩
  rw [hnodes]
  exact .behind (hnodes ▸ hnodup) (hnodes ▸ hk.old) (hrenewed.of_grows ha₁.grown)

/-! ### Statements of a list -/

/-- When a statement of a list has been gone through, either it or what replaced it is in the list,
and stored in nodes that belong to it. -/
theorem PlaceAt.settle {p : Program} (h : PlaceAt k p place)
    (hanchor : ∀ c, k.owner = some c → k.anchor = .ok (k.id, c)) {t : Tree.Stmt Name}
    {f : List NodeRef} (ht : StmtAt p.store Verbatim t k.id f) (hrenewed : Renewed k.base k.nodes f) :
    ∃ new f', (∀ c, k.owner = some c → p.Lists c (k.before ++ (new ++ k.behind))) ∧
      (k.owner = none → new = [k.id]) ∧ Along (StmtAt p.store Verbatim) (place.stmts t) new f' ∧
      Renewed k.base k.nodes f' := by
  cases place with
  | fixed =>
    obtain ⟨u, hu⟩ := h
    refine ⟨[k.id], f, fun c hc => ?_, fun _ => rfl, .single ht, hrenewed⟩
    cases hu.symm.trans (hanchor c hc)
  | listed =>
    refine ⟨[k.id], f, fun c hc => ?_, fun _ => rfl, .single ht, hrenewed⟩
    rcases h with ⟨hnone, -⟩ | ⟨c', hc', -, hlists⟩
    · cases hnone.symm.trans hc
    · cases hc'.symm.trans hc
      exact hlists
  | replaced ss =>
    obtain ⟨c, new, fnew, hc, -, hlists, hss, hnodup, hnew⟩ := h
    refine ⟨new, fnew, fun c' hc' => ?_, fun hnone => ?_, hss, hnodup, fun n hn => ?_⟩
    · cases hc.symm.trans hc'
      exact hlists
    · cases hnone.symm.trans hc
    · exact (hnew n hn).elim .inr fun h => .inl h.1

/-- The statement of a list that is visited next. -/
def Spot.next (owner : Option Container) (inMethod : Bool) (s : State) (done : List StmtId)
    (id : StmtId) (ids : List StmtId) (nodes : List NodeRef) : Spot where
  id := id
  owner := owner
  before := done
  behind := ids
  anchor := Path.anchor (.stmt id :: s.path)
  inMethod := inMethod
  base := s.program.store
  nodes := nodes

section Next

variable {owner : Option Container} {inMethod : Bool} {done ids : List StmtId} {id : StmtId}
  {f₁ f₂ : List NodeRef} {t : Tree.Stmt Name} {ss : List (Tree.Stmt Name)}

theorem ref_mem_of_mem {st : Store} (h : Along (StmtAt st Verbatim) ss ids f₂) {i : StmtId}
    (hi : i ∈ ids) : i.ref ∈ f₂ := by
  obtain ⟨_, _, _, hsub, hst⟩ := h.exists_of_mem_right hi
  exact hsub.subset hst.head_mem

theorem ListAt.sound (h : ListAt owner inMethod s done (id :: ids) (f₁ ++ f₂))
    (head : StmtAt s.program.store Verbatim t id f₁)
    (tail : Along (StmtAt s.program.store Verbatim) ss ids f₂) (hnodup : (f₁ ++ f₂).Nodup) :
    (Spot.next owner inMethod s done id ids f₁).Sound where
  before := h.done id List.mem_cons_self
  behind hi := (List.nodup_append.1 hnodup).2.2 _ head.head_mem _ (ref_mem_of_mem tail hi) rfl
  mem _ _ := head.head_mem
  old := head.old
  apart n hn := ⟨fun hmem => (h.apart n hn).1 (List.mem_append_left _ hmem), (h.apart n hn).2⟩

theorem ListAt.listed (h : ListAt owner inMethod s done (id :: ids) f₁) :
    PlaceAt (.next owner inMethod s done id ids f₂) s.program .listed := by
  cases owner with
  | none => exact .inl ⟨rfl, h.outside rfl⟩
  | some c => exact .inr ⟨c, rfl, h.path c rfl id, h.lists c rfl⟩

/-- One statement of the list has been gone through, and `new` stands in its place. -/
theorem ListAt.advance (h : ListAt owner inMethod s done (id :: ids) (f₁ ++ f₂))
    (tail : Along (StmtAt s.program.store Verbatim) ss ids f₂) (hnodup : (f₁ ++ f₂).Nodup)
    {s' : State} (hsteps : Steps owner f₁ s s') {new : List StmtId} {f₁' : List NodeRef}
    {ss' : List (Tree.Stmt Name)}
    (hlists : ∀ c, owner = some c → s'.program.Lists c (done ++ (new ++ ids)))
    (hnew : Along (StmtAt s'.program.store Verbatim) ss' new f₁')
    (hrenewed : Renewed s.program.store f₁ f₁') :
    ListAt owner inMethod s' (done ++ new) ids f₂ where
  lists c hc := by
    rw [List.append_assoc]
    exact hlists c hc
  outside := h.outside
  path := hsteps.path ▸ h.path
  method := hsteps.path ▸ h.method
  done i hi hmem := by
    -- What has come of the statement is in nodes of its own or in new ones.
    have hi₂ := ref_mem_of_mem tail hi
    rcases List.mem_append.1 hmem with hmem | hmem
    · exact h.done i (List.mem_cons_of_mem _ hi) hmem
    · rcases hrenewed.mem _ (ref_mem_of_mem hnew hmem) with hmem | hfresh
      · exact (List.nodup_append.1 hnodup).2.2 _ hmem _ hi₂ rfl
      · exact hfresh (Along.old (along_stmts_iff.2 tail) _ hi₂)
  apart n hn := ⟨fun hmem => (h.apart n hn).1 (List.mem_append_right _ hmem),
    hsteps.store.old (h.apart n hn).2⟩

end Next

theorem stmts_visited {t : Tree.Stmt Name} {ss : List (Tree.Stmt Name)} (ih : StmtFollows r t)
    (ihs : ListFollows r ss) : ListFollows r (t :: ss) := by
  intro levels owner inMethod s g done ids f hlist hagrees h hnodup hlevels
  obtain ⟨id, ids, f₁, f₂, rfl, rfl, head, tail⟩ := Along.cons_iff.1 h
  obtain ⟨hn₁, hn₂, hdisj⟩ := List.nodup_append.1 hnodup
  have hnot : ∀ n ∈ f₂, n ∉ f₁ := fun n hn hn' => hdisj n hn' n hn rfl
  have hold₂ := Along.old (along_stmts_iff.2 tail)
  have hk := hlist.sound head tail hnodup
  rw [sortCount_append] at hlevels
  -- The first statement.
  obtain ⟨s₁, hrun₁, hat₁, hsteps₁, ft, ht, hrenewed⟩ := ih levels _ s g .listed hk head hn₁
    (Nat.le_trans (Nat.le_add_right _ _) hlevels) rfl ⟨rfl, hlist.method⟩
    ⟨hagrees, hlist.listed, .refl _ _⟩
  obtain ⟨new₁, f₁', hlists₁, hnone₁, hnew₁, hrenewed₁⟩ :=
    hat₁.place.settle (fun c hc => hlist.path c hc id) ht hrenewed
  -- The others, which are as they were.
  have tail₁ : Along (StmtAt s₁.program.store Verbatim) ss ids f₂ := tail.imp fun _ _ _ _ hsub hst =>
    hst.grow hsteps₁.store (fun _ _ hn => hn) fun n hn hT => by
      have hn := hsub.subset hn
      exact hT.elim (fun h => absurd h (hnot n hn)) fun h =>
        absurd (List.mem_append_right _ hn) (hlist.apart n h).1
  obtain ⟨s₂, new₂, f₂', hrun₂, hagrees₂, hsteps₂, hlists₂, hnone₂, hnew₂, hrenewed₂⟩ :=
    ihs levels owner inMethod s₁ _ (done ++ new₁) ids f₂
      (hlist.advance tail hnodup hsteps₁ hlists₁ hnew₁ hrenewed₁) hat₁.agrees tail₁ hn₂
      (Nat.le_trans (Nat.le_add_left _ _) hlevels)
  have hnew₁' : Along (StmtAt s₂.program.store Verbatim) _ new₁ f₁' :=
    hnew₁.imp fun _ _ _ _ hsub hst => hst.grow hsteps₂.store (fun _ _ hn => hn) fun n hn =>
      hrenewed₁.spared (fun n hn => ⟨hnot n hn, hold₂ n hn⟩) (fun n hn => hk.apart n hn) n
        (hsub.subset hn)
  rw [Rewrite.stmts]
  refine ⟨s₂, new₁ ++ new₂, f₁' ++ f₂', ?_, hagrees₂, ?_, fun c hc => ?_, fun hc => ?_,
    hnew₁'.append hnew₂, ?_⟩
  · exact (run_bind hrun₁).trans hrun₂
  · exact (hsteps₁.mono fun n => List.mem_append_left _).trans
      (hsteps₂.mono fun n => List.mem_append_right _)
  · rw [← List.append_assoc]
    exact hlists₂ c hc
  · rw [hnone₁ hc, hnone₂ hc]
    rfl
  · exact Renewed.append hnodup hold₂ hrenewed₁ hsteps₁.store
      (Along.old (along_stmts_iff.2 hnew₁)) hrenewed₂

/-! ## All statements -/

theorem leaf_visited (hk : k.Sound) {t : Tree.Stmt Name} (h : StmtAt k.base Verbatim t k.id k.nodes)
    (hnodup : k.nodes.Nodup) (hst : s.program.store = k.base) (ha : Amid k s g place) :
    StmtVisited k (pure ()) s ((place, t), g) :=
  .of_unchanged hk (hst ▸ h) hnodup rfl ha.toAt (.of_eq _ _ rfl rfl rfl)

mutual

/-- Every statement is gone through as in the rewrite: one case for each form. -/
theorem stmt_follows :
    ∀ t : Tree.Stmt Name, StmtFollows r t
  | .expr span e => by
    intro levels k s g place hk h hnodup hlevels hst hpath hat
    obtain ⟨e', f, hnode, he, hnodes⟩ := stmtAt_expr_iff.1 h
    obtain ⟨levels, rfl, -⟩ := exists_level rfl (hnodes ▸ hlevels)
    exact .frame hst hpath hat hnode rfl fun s hst ha => expr_visited hk hst h hnodup he hnodes ha
  | .localVar span t x init isFinal => by
    intro levels k s g place hk h hnodup hlevels hst hpath hat
    obtain ⟨t', _, init', ft, fi, hnode, rfl, ht, hi, hnodes⟩ := stmtAt_localVar_iff.1 h
    obtain ⟨levels, rfl, -⟩ := exists_level rfl (hnodes ▸ hlevels)
    exact .frame hst hpath hat hnode rfl fun s hst ha =>
      localVar_visited hk hst h hnodup ht hi hnodes ha
  | .block span ss => by
    intro levels k s g place hk h hnodup hlevels hst hpath hat
    obtain ⟨b, ids, f, hnode, hids, hss, hnodes⟩ := stmtAt_block_iff.1 h
    obtain ⟨levels, rfl, hle⟩ := exists_level rfl (hnodes ▸ hlevels)
    exact .frame hst hpath hat hnode rfl fun s hst ha =>
      block_visited hk ha hst (stmts_follow ss) hnode hids hss hnodup hnodes hle
  | .ifElse span c t none => by
    intro levels k s g place hk h hnodup hlevels hst hpath hat
    obtain ⟨c', t', e', fc, ft, fe, hnode, hc, ht, he, hnodes⟩ := stmtAt_ifElse_iff.1 h
    obtain ⟨levels, rfl, hle⟩ := exists_level rfl (hnodes ▸ hlevels)
    exact .frame hst hpath hat hnode rfl fun s hst ha =>
      ifElse_visited hk ha hst (stmt_follows t) (by simp) hnode hc ht he hnodup hnodes hle
  | .ifElse span c t (some e) => by
    intro levels k s g place hk h hnodup hlevels hst hpath hat
    have ihe := stmt_follows e
    obtain ⟨c', t', e', fc, ft, fe, hnode, hc, ht, he, hnodes⟩ := stmtAt_ifElse_iff.1 h
    obtain ⟨levels, rfl, hle⟩ := exists_level rfl (hnodes ▸ hlevels)
    exact .frame hst hpath hat hnode rfl fun s hst ha =>
      ifElse_visited hk ha hst (stmt_follows t) (by rintro _ ⟨⟩; exact ihe) hnode hc ht he
        hnodup hnodes hle
  | .whileLoop span c b => by
    intro levels k s g place hk h hnodup hlevels hst hpath hat
    obtain ⟨c', b', fc, fb, hnode, hc, hb, hnodes⟩ := stmtAt_whileLoop_iff.1 h
    obtain ⟨levels, rfl, hle⟩ := exists_level rfl (hnodes ▸ hlevels)
    exact .frame hst hpath hat hnode rfl fun s hst ha =>
      whileLoop_visited hk ha hst (stmt_follows b) hnode hc hb hnodup hnodes hle
  | .switch span sel as => by
    intro levels k s g place hk h hnodup hlevels hst hpath hat
    obtain ⟨sel', slice, ids, fs, fa, hnode, hids, hsel, harms, hnodes⟩ := stmtAt_switch_iff.1 h
    obtain ⟨levels, rfl, hle⟩ := exists_level rfl (hnodes ▸ hlevels)
    exact .frame hst hpath hat hnode rfl fun s hst ha =>
      switch_visited hk ha hst (arms_follow as) hnode hids hsel harms hnodup hnodes hle
  | .returnWith span v => by
    intro levels k s g place hk h hnodup hlevels hst hpath hat
    obtain ⟨v', f, hnode, hv, hnodes⟩ := stmtAt_returnWith_iff.1 h
    obtain ⟨levels, rfl, -⟩ := exists_level rfl (hnodes ▸ hlevels)
    exact .frame hst hpath hat hnode rfl fun s hst ha =>
      returnWith_visited hk hst h hnodup hv hnodes ha
  | .breakOut span => by
    intro levels k s g place hk h hnodup hlevels hst hpath hat
    obtain ⟨hnode, hnodes⟩ := (stmtAt_leaf_iff .breakOut (.inl ⟨rfl, rfl⟩)).1 h
    obtain ⟨levels, rfl, -⟩ := exists_level rfl (hnodes ▸ hlevels)
    rw [Rewrite.stmt]
    exact .frame hst hpath hat hnode rfl fun s hst ha => leaf_visited hk h hnodup hst ha
  | .continueOn span => by
    intro levels k s g place hk h hnodup hlevels hst hpath hat
    obtain ⟨hnode, hnodes⟩ := (stmtAt_leaf_iff .continueOn (.inr (.inl ⟨rfl, rfl⟩))).1 h
    obtain ⟨levels, rfl, -⟩ := exists_level rfl (hnodes ▸ hlevels)
    rw [Rewrite.stmt]
    exact .frame hst hpath hat hnode rfl fun s hst ha => leaf_visited hk h hnodup hst ha
  | .empty span => by
    intro levels k s g place hk h hnodup hlevels hst hpath hat
    obtain ⟨hnode, hnodes⟩ := (stmtAt_leaf_iff .empty (.inr (.inr ⟨rfl, rfl⟩))).1 h
    obtain ⟨levels, rfl, -⟩ := exists_level rfl (hnodes ▸ hlevels)
    rw [Rewrite.stmt]
    exact .frame hst hpath hat hnode rfl fun s hst ha => leaf_visited hk h hnodup hst ha

theorem stmts_follow :
    ∀ ss : List (Tree.Stmt Name), ListFollows r ss
  | [] => by
    intro levels owner inMethod s g done ids f hlist hagrees h hnodup hlevels
    obtain ⟨rfl, rfl⟩ := Along.nil_iff.1 h
    rw [Rewrite.stmts]
    exact ⟨s, [], [], rfl, hagrees, .of_eq _ _ rfl rfl rfl, hlist.lists, fun _ => rfl, .nil,
      .refl .nil⟩
  | t :: ss => stmts_visited (stmt_follows t) (stmts_follow ss)

theorem arms_follow :
    ∀ as : List (Tree.Arm Name), ArmsFollow r as
  | [] => by
    intro levels k s g place ids f hk ha h hnodup hf hlevels
    obtain ⟨rfl, rfl⟩ := Along.nil_iff.1 h
    rw [Rewrite.arms]
    exact ⟨s, rfl, ha, .of_eq _ _ rfl rfl rfl, [], .nil, .refl .nil⟩
  | .mk _ ss :: as => arms_visited (stmts_follow ss) (arms_follow as)

end

end Forms

end TupleAssign.Desugar
