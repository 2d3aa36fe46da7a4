import TupleAssign.Proofs.Expanding
import TupleAssign.Proofs.Splicing
/-!
# The walk follows the rewrite

The walk compares names of the table, and so does the rewrite of the unit whose tree holds the names
as they are stored. A state of the walk agrees with a progress of this rewrite if their counters,
problems, tables and names of temporaries are the same and their scopes declare the same types
(`Agrees`). What the walk may have
changed since an earlier state is said by `Steps`: only the list of one container and the nodes of
what was visited.

The statement that is being visited has a `Spot`; `PlaceAt` ties its place in the rewrite to the
list of its container. On this ground one unpacking is handled alike on both sides (`handle_eq`).
-/

namespace TupleAssign.Desugar

open Store

/-- How far the rewrite of a tree of names has come. -/
abbrev Progress := Rewrite.Progress Name NameSupply

abbrev Place := Rewrite.Place Name

/-! ## Scopes -/

section Scoping

variable (st : Store)

def DeclarationAt (d : Declaration (Tree.Ty Name) Name) (d' : Declaration TypeId Name) : Prop :=
  d.name = d'.name ∧ d.offset = d'.offset ∧ DeclaredAt st Verbatim d.type d'.type

/-- The same declarations in the same scopes. -/
def ScopesAt (s : Scopes (Tree.Ty Name) Name) (s' : Scopes TypeId Name) : Prop :=
  List.Forall₂ (List.Forall₂ (DeclarationAt st)) s.frames s'.frames

variable {st} {s : Scopes (Tree.Ty Name) Name} {s' : Scopes TypeId Name}

theorem ScopesAt.grow {st' : Store} {T : NodeRef → Prop} (hg : st.Grows st' T)
    (h : ScopesAt st s s') : ScopesAt st' s s' :=
  List.Forall₂.imp (fun _ _ hf => hf.imp fun _ _ hd =>
    ⟨hd.1, hd.2.1, hd.2.2.grow hg fun _ _ hn => hn⟩) h

theorem ScopesAt.push (h : ScopesAt st s s') : ScopesAt st s.push s'.push := .cons .nil h

theorem ScopesAt.pop (h : ScopesAt st s s') : ScopesAt st s.pop s'.pop := by
  obtain ⟨frames⟩ := s
  obtain ⟨frames'⟩ := s'
  cases h with
  | nil => exact .nil
  | cons _ tail => exact tail

theorem ScopesAt.declare (h : ScopesAt st s s') (name : Name) {t : Tree.Ty Name} {t' : TypeId}
    (ht : DeclaredAt st Verbatim t t') (offset : Nat) :
    ScopesAt st (s.declare name t offset) (s'.declare name t' offset) := by
  obtain ⟨frames⟩ := s
  obtain ⟨frames'⟩ := s'
  cases h with
  | nil => exact .nil
  | cons head tail => exact .cons (.cons ⟨rfl, rfl, ht⟩ head) tail

/-- A name resolves in both to the same type, or in none. -/
theorem ScopesAt.resolve (h : ScopesAt st s s') (name : Name) (offset : Nat) :
    Option.Rel (DeclaredAt st Verbatim) (s.resolve name offset) (s'.resolve name offset) := by
  have hframe : ∀ {f f'}, List.Forall₂ (DeclarationAt st) f f' →
      Option.Rel (DeclaredAt st Verbatim)
        ((f.find? fun d => d.name == name && d.offset < offset).map (·.type))
        ((f'.find? fun d => d.name == name && d.offset < offset).map (·.type)) := by
    intro f f' hf
    induction hf with
    | nil => exact .none
    | @cons d d' f f' hd _ ih =>
      obtain ⟨hname, hoffset, htype⟩ := hd
      rw [List.find?_cons, List.find?_cons, hname, hoffset]
      cases hvis : (d'.name == name && decide (d'.offset < offset)) with
      | true => exact .some htype
      | false => exact ih
  obtain ⟨frames⟩ := s
  obtain ⟨frames'⟩ := s'
  simp only [ScopesAt] at h
  simp only [Scopes.resolve]
  induction h with
  | nil => exact .none
  | @cons f f' frames frames' hf _ ih =>
    rw [List.findSome?_cons, List.findSome?_cons]
    have := hframe hf
    cases hr : (f.find? fun d => d.name == name && d.offset < offset).map (·.type) <;>
    cases hr' : (f'.find? fun d => d.name == name && d.offset < offset).map (·.type) <;>
    rw [hr, hr'] at this <;> cases this
    · exact ih
    · exact .some ‹_›

/-- The types of temporaries are looked up alike: both fail with one problem, or both succeed. -/
theorem ScopesAt.tempTypes (h : ScopesAt st s s') (span : Span) (targets : List Name)
    (hazards : List Hazard) :
    (∃ p, Desugar.tempTypes s span targets hazards = .error p ∧
      Desugar.tempTypes s' span targets hazards = .error p) ∨
    (∃ ts ts', Desugar.tempTypes s span targets hazards = .ok ts ∧
      Desugar.tempTypes s' span targets hazards = .ok ts' ∧
      List.Forall₂ (Option.Rel (DeclaredAt st Verbatim)) ts ts') := by
  induction targets generalizing hazards with
  | nil => exact .inr ⟨[], [], rfl, rfl, .nil⟩
  | cons t targets ih =>
    cases hazards with
    | nil => exact .inr ⟨[], [], rfl, rfl, .nil⟩
    | cons hz hazards =>
      simp only [Desugar.tempTypes]
      by_cases hneeds : hz.needsTemporary = true
      · simp only [hneeds, if_true]
        have hres := h.resolve t span.start
        cases hr : s.resolve t span.start <;> cases hr' : s'.resolve t span.start <;>
        rw [hr, hr'] at hres <;> cases hres
        · exact .inl ⟨_, rfl, rfl⟩
        · rcases ih hazards with ⟨p, h₁, h₂⟩ | ⟨ts, ts', h₁, h₂, hts⟩
          · exact .inl ⟨p, by simp [h₁, bind, Except.bind], by simp [h₂, bind, Except.bind]⟩
          · exact .inr ⟨_, _, by simp only [h₁, bind, Except.bind]; rfl,
              by simp only [h₂, bind, Except.bind]; rfl, .cons (.some ‹_›) hts⟩
      · simp only [hneeds, if_false, Bool.false_eq_true]
        rcases ih hazards with ⟨p, h₁, h₂⟩ | ⟨ts, ts', h₁, h₂, hts⟩
        · exact .inl ⟨p, by simp [h₁, bind, Except.bind], by simp [h₂, bind, Except.bind]⟩
        · exact .inr ⟨_, _, by simp only [h₁, bind, Except.bind]; rfl,
            by simp only [h₂, bind, Except.bind]; rfl, .cons .none hts⟩

end Scoping

/-! ## Agreement and change -/

/-- The walk has come as far as the rewrite. -/
structure Agrees (s : State) (g : Progress) : Prop where
  temps : g.temps = ⟨s.temps, s.names⟩
  scopes : ScopesAt s.program.store g.scopes s.scopes
  used : s.used = g.used
  problems : s.problems = g.problems
  transformed : s.transformed = g.transformed
  skipped : s.skipped = g.skipped
  tried : s.temps.Tried s.names

section

variable {s : State} {g : Progress}

theorem Agrees.push (h : Agrees s g) :
    Agrees { s with scopes := s.scopes.push } { g with scopes := g.scopes.push } :=
  { h with scopes := h.scopes.push }

theorem Agrees.pop (h : Agrees s g) :
    Agrees { s with scopes := s.scopes.pop } { g with scopes := g.scopes.pop } :=
  { h with scopes := h.scopes.pop }

theorem Agrees.declare (h : Agrees s g) (name : Name) {t : Tree.Ty Name} {t' : TypeId}
    (ht : DeclaredAt s.program.store Verbatim t t') (offset : Nat) :
    Agrees { s with scopes := s.scopes.declare name t' offset }
      { g with scopes := g.scopes.declare name t offset } :=
  { h with scopes := h.scopes.declare name ht offset }

theorem Agrees.setPath (h : Agrees s g) (path : Path) : Agrees { s with path } g :=
  { h with }

end

/-- The node of the container, if there is one, is `n`. -/
def Owns (owner : Option Container) (n : NodeRef) : Prop := ∃ c, owner = some c ∧ c.node? = some n

/-- From the first state to the second, only the list of the owner and the nodes in `f` may have
been changed. -/
structure Steps (owner : Option Container) (f : List NodeRef) (s s' : State) : Prop where
  store : s.program.store.Grows s'.program.store (fun n => n ∈ f ∨ Owns owner n)
  names : s.names.Keeps s'.names
  path : s'.path = s.path
  shape : ∀ c, owner = some c → c.SameShape s.program s'.program
  unit : (∀ m, owner ≠ some (.body m)) → s'.program.unit = s.program.unit

section Frame

variable {owner owner' : Option Container} {f f' : List NodeRef} {s s' s'' : State}

theorem Steps.of_eq (owner : Option Container) (f : List NodeRef) (hp : s'.program = s.program)
    (hn : s'.names = s.names) (hpath : s'.path = s.path) : Steps owner f s s' where
  store := by
    rw [hp]
    exact .refl _ _
  names := by
    rw [hn]
    exact fun _ _ hk => hk
  path := hpath
  shape c _ := by
    rw [hp]
    exact .of_untouched (.refl _ nothing) rfl fun _ _ hn => hn
  unit _ := by rw [hp]

theorem Steps.trans (h : Steps owner f s s') (h' : Steps owner f s' s'') : Steps owner f s s'' where
  store := h.store.trans h'.store
  names := h.names.trans h'.names
  path := h'.path.trans h.path
  shape c hc := (h.shape c hc).trans (h'.shape c hc)
  unit hm := (h'.unit hm).trans (h.unit hm)

theorem Steps.mono (h : Steps owner f s s') (hf : ∀ n ∈ f, n ∈ f') : Steps owner f' s s' :=
  { h with store := h.store.mono fun n _ hn => hn.imp_left (hf n) }

/-- What happens inside a node that is not the owner's is a change of that node only. -/
theorem Steps.inside (h : Steps owner' f s s') (hf : ∀ n ∈ f, n ∈ f')
    (hin : ∀ n, Owns owner' n → n ∈ f') (hbody : ∀ m, owner' ≠ some (.body m))
    (hout : ∀ n, Owns owner n → n ∉ f') : Steps owner f' s s' where
  store := h.store.mono fun n _ hn => .inl (hn.elim (hf n) (hin n))
  names := h.names
  path := h.path
  shape c hc := by
    refine .of_untouched h.store (h.unit hbody) fun n hn => ?_
    have hn := hout n ⟨c, hc, hn⟩
    exact fun ht => hn (ht.elim (hf n) (hin n))
  unit _ := h.unit hbody

/-- What is written into the fields that `Steps` does not speak of is of no matter. -/
theorem Steps.congr (h : Steps owner f s s') {t t' : State} (hp : t.program = s.program)
    (hn : t.names = s.names) (hp' : t'.program = s'.program) (hn' : t'.names = s'.names)
    (hpath : t'.path = t.path) : Steps owner f t t' where
  store := by
    rw [hp, hp']
    exact h.store
  names := by
    rw [hn, hn']
    exact h.names
  path := hpath
  shape c hc := by
    rw [hp, hp']
    exact h.shape c hc
  unit hm := by
    rw [hp, hp']
    exact h.unit hm

end Frame

/-! ## The statement at hand -/

/-- A statement while it is visited: the container in whose list it stands, with what stands before
and behind it there; and its nodes, in the store as it was when the visit began. -/
structure Spot where
  id : StmtId
  owner : Option Container
  before : List StmtId
  behind : List StmtId
  /-- What the path says about the place of the statement. -/
  anchor : Except Unsupported (StmtId × Container)
  inMethod : Bool
  base : Store
  nodes : List NodeRef

/-- The statement stands once in its list, and its nodes were there and are not the owner's. -/
structure Spot.Sound (k : Spot) : Prop where
  before : k.id ∉ k.before
  behind : k.id ∉ k.behind
  /-- What stands in no list need not be a statement. -/
  mem : ∀ c, k.owner = some c → k.id.ref ∈ k.nodes
  old : ∀ n ∈ k.nodes, k.base.Old n
  apart : ∀ n, Owns k.owner n → n ∉ k.nodes ∧ k.base.Old n

/-- What the place of a statement in the rewrite means for the program. -/
def PlaceAt (k : Spot) (p : Program) : Place → Prop
  | .fixed => ∃ u, k.anchor = .error u
  | .listed => (k.owner = none ∧ k.inMethod = false) ∨
      ∃ c, k.owner = some c ∧ k.anchor = .ok (k.id, c) ∧ p.Lists c (k.before ++ k.id :: k.behind)
  | .replaced ss => ∃ c new fnew, k.owner = some c ∧ k.anchor = .ok (k.id, c) ∧
      p.Lists c (k.before ++ (new ++ k.behind)) ∧ Along (StmtAt p.store Verbatim) ss new fnew ∧
      fnew.Nodup ∧ ∀ n ∈ fnew, ¬ k.base.Old n ∨ (n ∈ k.nodes ∧ (n.sort = .expr ∨ n.sort = .type))

/-- The visit of a statement has come as far as the rewrite of it. -/
structure At (k : Spot) (s : State) (g : Progress) (place : Place) : Prop where
  agrees : Agrees s g
  place : PlaceAt k s.program place
  grown : k.base.Grows s.program.store (fun _ => True)

/-- The path ends in the statement, perhaps in an expression of it. -/
def OnPath (k : Spot) (path : Path) : Prop :=
  path.anchor = k.anchor ∧ path.enclosingMethod?.isSome = k.inMethod

/-- Changes inside the statement do not reach its place. -/
theorem PlaceAt.inside {k : Spot} (hk : k.Sound) {owner : Option Container}
    {f : List NodeRef} {s s' : State} {place : Place}
    (h : PlaceAt k s.program place) (hs : Steps owner f s s')
    (hf : ∀ n ∈ f, n ∈ k.nodes) (hin : ∀ n, Owns owner n → n ∈ k.nodes)
    (hbody : ∀ m, owner ≠ some (.body m)) : PlaceAt k s'.program place := by
  have hin' : ∀ n, n ∈ f ∨ Owns owner n → n ∈ k.nodes := fun n hn => hn.elim (hf n) (hin n)
  have hlists : ∀ {c ids}, k.owner = some c → s.program.Lists c ids → s'.program.Lists c ids :=
    fun hc hl => hl.of_untouched hs.store (hs.unit hbody) fun n hn hT =>
      (hk.apart n ⟨_, hc, hn⟩).1 (hin' n hT)
  cases place with
  | fixed => exact h
  | listed =>
    rcases h with h | ⟨c, hc, hanchor, hl⟩
    · exact .inl h
    · exact .inr ⟨c, hc, hanchor, hlists hc hl⟩
  | replaced ss =>
    obtain ⟨c, new, fnew, hc, hanchor, hl, hss, hnodup, hnew⟩ := h
    refine ⟨c, new, fnew, hc, hanchor, hlists hc hl, hss.imp ?_, hnodup, hnew⟩
    intro _ _ _ g hg hst
    refine hst.grow hs.store (fun _ _ hn => hn) fun n hn hT => ?_
    rcases hnew n (hg.subset hn) with hfresh | ⟨-, hsort⟩
    · exact absurd (hk.old n (hin' n hT)) hfresh
    · exact hsort

/-! ## One unpacking -/

section Handling

variable {k : Spot} {s : State} {g : Progress} {place : Place}

/-- A statement that was replaced is not in the list any more. -/
theorem PlaceAt.not_mem {p : Program} (hk : k.Sound) {c : Container}
    (hc : k.owner = some c) {ss : List (Tree.Stmt Name)} {new : List StmtId} {fnew : List NodeRef}
    (hss : Along (StmtAt p.store Verbatim) ss new fnew)
    (hnew : ∀ n ∈ fnew, ¬ k.base.Old n ∨ (n ∈ k.nodes ∧ (n.sort = .expr ∨ n.sort = .type))) :
    k.id ∉ k.before ++ (new ++ k.behind) := by
  intro hmem
  rcases List.mem_append.1 hmem with hmem | hmem
  · exact hk.before hmem
  rcases List.mem_append.1 hmem with hmem | hmem
  · obtain ⟨_, _, fs, hf, hst⟩ := hss.exists_of_mem_right hmem
    rcases hnew _ (hf.subset hst.head_mem) with hfresh | ⟨-, hsort⟩
    · exact hfresh (hk.old _ (hk.mem c hc))
    · simp at hsort
  · exact hk.behind hmem

/-- Nodes that were there and nodes that are new are distinct. -/
theorem nodup_of_perm {st st' : Store} {f f' fadd fnew : List NodeRef} (hf : f.Nodup)
    (hold : ∀ n ∈ f, st.Old n) (hsub : f'.Sublist f) (hadds : st.Adds st' fadd)
    (hperm : fnew.Perm (f' ++ fadd)) : fnew.Nodup := by
  refine hperm.nodup_iff.2 (List.nodup_append.2 ⟨hsub.nodup hf, hadds.nodup, ?_⟩)
  rintro n hn _ hn' rfl
  exact hadds.fresh n hn' (hold n (hsub.subset hn))

/-- The nodes of an expansion are new, or those of the values, which are expressions and types. -/
theorem expansion_nodes (h : At k s g place) {es : List (Tree.Expr Name)} {ids : List ExprId}
    {f f' fadd fnew : List NodeRef} {st : Store}
    (hvalues : Along (ExprAt s.program.store Verbatim) es ids f) (hf : ∀ n ∈ f, n ∈ k.nodes)
    (hsub : f'.Sublist f) (hadds : s.program.store.Adds st fadd)
    (hperm : fnew.Perm (f' ++ fadd)) :
    ∀ n ∈ fnew, ¬ k.base.Old n ∨ (n ∈ k.nodes ∧ (n.sort = .expr ∨ n.sort = .type)) := by
  intro n hn
  rcases List.mem_append.1 (hperm.mem_iff.1 hn) with hn | hn
  · obtain ⟨_, _, _, _, fv, hv, hnv⟩ := hvalues.exists_of_mem (hsub.subset hn)
    exact .inr ⟨hf n (hsub.subset hn), hv.sort_of_inert rfl n hnv⟩
  · exact .inl fun hold => hadds.fresh n hn (h.grown.old hold)

/-- Writing the list of the owner leaves such nodes alone. -/
theorem along_of_owner_written (hk : k.Sound) {c : Container} (hc : k.owner = some c)
    {st st' : Store} (hg : st.Grows st' (fun n => c.node? = some n))
    {ss : List (Tree.Stmt Name)} {new : List StmtId} {fnew : List NodeRef}
    (hfnew : ∀ n ∈ fnew, ¬ k.base.Old n ∨ (n ∈ k.nodes ∧ (n.sort = .expr ∨ n.sort = .type)))
    (h : Along (StmtAt st Verbatim) ss new fnew) : Along (StmtAt st' Verbatim) ss new fnew := by
  refine h.imp fun _ _ _ fs hfs hst => hst.grow hg (fun _ _ hn => hn) fun n hn hT => ?_
  obtain ⟨hapart, hold⟩ := hk.apart n ⟨c, hc, hT⟩
  rcases hfnew n (hfs.subset hn) with hfresh | ⟨hmem, -⟩
  · exact absurd hold hfresh
  · exact absurd hmem hapart

/-- Carrying out a plan puts the expansion of its trees in the place of the statement. -/
theorem carryOut_eq (hk : k.Sound) (h : At k s g .listed) {c : Container} (hc : k.owner = some c)
    (hanchor : k.anchor = .ok (k.id, c))
    (hlists : s.program.Lists c (k.before ++ k.id :: k.behind)) (position : Nat)
    (u : Unpacking Name) (targets : List Name) {ids : List ExprId} {f : List NodeRef}
    {types : List (Option (Tree.Ty Name))} {types' : List (Option TypeId)}
    (hvalues : Along (ExprAt s.program.store Verbatim) u.values ids f) (hnodup : f.Nodup)
    (hf : ∀ n ∈ f, n ∈ k.nodes)
    (htypes : List.Forall₂ (Option.Rel (DeclaredAt s.program.store Verbatim)) types types') :
    let named := Rewrite.nameSteps g.temps targets u.values types
    ∃ s', s.carryOut {
        span := u.span, location := ⟨c, k.id, position⟩,
        steps := planSteps targets ids types', forms := [u.left.form, u.right.form] } = .ok s' ∧
      At k s' { g with
        temps := named.2, used := g.used ++ [u.left.form, u.right.form]
        transformed := g.transformed + 1 } (.replaced (Rewrite.expansion u.span named.1)) ∧
      Steps k.owner [] s s' := by
  -- Naming the temporaries touches the table of names only.
  obtain ⟨htemps, hkeeps, htried, f', hf', hsteps⟩ :=
    nameSteps_eq targets hvalues htypes s.temps s.names
  generalize hnamed : State.nameSteps s.temps s.names (planSteps targets ids types') = named
    at htemps hkeeps htried hsteps
  obtain ⟨steps, temps, names⟩ := named
  -- The expansion is entered; the list still has the statement in it.
  obtain ⟨new, st, fadd, fnew, hexpand, hadds, hperm, hnew⟩ := expand_eq u.span hsteps
  have hlists' : Program.Lists { s.program with store := st } c (k.before ++ k.id :: k.behind) := by
    refine Program.Lists.of_untouched (T := nothing) hadds.grows ?_ (fun _ _ hn => hn) hlists
    rfl
  -- The list is exchanged.
  obtain ⟨slice, p', hsplice, hlists'', hg, hshape, hunit⟩ :=
    Program.splice_eq new hlists' hk.before hk.behind
  have hgrows : s.program.store.Grows p'.store (fun n => n ∈ [] ∨ Owns k.owner n) :=
    hadds.grows.of_nothing.trans (hg.mono fun n _ hn => .inr ⟨c, hc, hn⟩)
  have hfnew := expansion_nodes h hvalues hf hf' hadds hperm
  have hold : ∀ n ∈ f, s.program.store.Old n := by
    intro n hn
    obtain ⟨_, _, _, _, fv, hv, hnv⟩ := hvalues.exists_of_mem hn
    exact hv.old n hnv
  refine ⟨{ s with
    program := p', temps, names, used := s.used ++ [u.left.form, u.right.form]
    transformed := s.transformed + 1 }, ?_,
    ⟨⟨?_, ?_, ?_, ?_, ?_, ?_, htried h.agrees.tried⟩, ?_, ?_⟩, ?_⟩
  · simp [State.carryOut, hnamed, hexpand, hsplice, bind, Except.bind, pure, Except.pure]
  · rw [h.agrees.temps]
    exact htemps
  · exact h.agrees.scopes.grow hgrows
  · simp only [h.agrees.used]
  · exact h.agrees.problems
  · simp only [h.agrees.transformed]
  · exact h.agrees.skipped
  · rw [h.agrees.temps]
    exact ⟨c, new, fnew, hc, hanchor, hlists'', along_of_owner_written hk hc hg hfnew hnew,
      nodup_of_perm hnodup hold hf' hadds hperm, hfnew⟩
  · exact h.grown.trans (hgrows.mono fun _ _ _ => trivial)
  · refine ⟨hgrows, hkeeps, rfl, fun c' hc' => ?_, fun hm => ?_⟩
    · obtain rfl : c = c' := Option.some.inj (hc.symm.trans hc')
      have hentered : c.SameShape s.program { s.program with store := st } :=
        .of_untouched (T := nothing) hadds.grows rfl fun _ _ hn => hn
      exact hentered.trans hshape
    · exact hunit fun m hm' => hm m (by rw [hc, hm'])

/-- Outside of methods nothing has targets. -/
theorem checkTargets_outside {ν : Type} (u : Unpacking ν) :
    checkTargets false u = .error ⟨.noEnclosingMethod, u.span⟩ :=
  rfl

/-- A rejected unpacking changes nothing but problems and counters. -/
theorem At.reject (h : At k s g place) {problems : List (Problem Name)} {skipped : Nat} :
    At k { s with problems, skipped } { g with problems, skipped } place where
  agrees := ⟨h.agrees.temps, h.agrees.scopes, h.agrees.used, rfl, h.agrees.transformed, rfl,
    h.agrees.tried⟩
  place := h.place
  grown := h.grown

/-- An unpacking is handled as in the rewrite. -/
theorem handle_eq (hk : k.Sound) (h : At k s g place) (hpath : OnPath k s.path) (u : Unpacking Name)
    {ids : List ExprId} {f : List NodeRef}
    (hvalues : Along (ExprAt s.program.store Verbatim) u.values ids f) (hnodup : f.Nodup)
    (hf : ∀ n ∈ f, n ∈ k.nodes) :
    ∃ s', s.handle u ids = .ok s' ∧
      At k s' (Rewrite.handle k.inMethod place u g).2 (Rewrite.handle k.inMethod place u g).1 ∧
      Steps k.owner [] s s' := by
  obtain ⟨hanchor, hmethod⟩ := hpath
  have hproblem : ∀ p, s.verdict u ids = .ok (.error (.problem p)) →
      s.handle u ids = .ok { s with problems := g.problems ++ [p], skipped := g.skipped } := by
    intro p hv
    simp [State.handle, hv, h.agrees.problems, h.agrees.skipped, bind, Except.bind, pure,
      Except.pure]
  have hskip : ∀ r, s.verdict u ids = .ok (.error (.unsupported r)) →
      s.handle u ids = .ok { s with problems := g.problems, skipped := g.skipped + 1 } := by
    intro r hv
    simp [State.handle, hv, h.agrees.problems, h.agrees.skipped, bind, Except.bind, pure,
      Except.pure]
  cases htargets : checkTargets k.inMethod u with
  | error p =>
    have hverdict : s.verdict u ids = .ok (.error (.problem p)) := by
      simp only [State.verdict, hmethod, htargets]
      rfl
    refine ⟨_, hproblem p hverdict, ?_, .of_eq _ _ rfl rfl rfl⟩
    simp only [Rewrite.handle, htargets]
    exact h.reject
  | ok targets =>
    have hskipped : ∀ r, s.program.locate s.path = .ok (.error r) →
        s.verdict u ids = .ok (.error (.unsupported r)) := by
      intro r hr
      simp only [State.verdict, hmethod, htargets, hr, bind, Except.bind]
      rfl
    cases place with
    | fixed =>
      obtain ⟨r, hr⟩ := h.place
      have hlocate := s.program.locate_of_anchor_error (hanchor.trans hr)
      refine ⟨_, hskip r (hskipped r hlocate), ?_, .of_eq _ _ rfl rfl rfl⟩
      simp only [Rewrite.handle, htargets]
      exact h.reject
    | replaced ss =>
      -- The path still leads to the statement, but its list does not have it any more.
      obtain ⟨c, new, fnew, hc, hok, hlists, hss, -, hnew⟩ := h.place
      have hlocate := Program.locate_of_not_mem (hanchor.trans hok) hlists
        (PlaceAt.not_mem hk hc hss hnew)
      refine ⟨_, hskip _ (hskipped _ hlocate), ?_, .of_eq _ _ rfl rfl rfl⟩
      simp only [Rewrite.handle, htargets]
      exact h.reject
    | listed =>
      -- In the list of an initializer the check of the targets has failed before.
      rcases h.place with ⟨-, hout⟩ | ⟨c, hc, hok, hlists⟩
      · rw [hout, checkTargets_outside] at htargets
        cases htargets
      obtain ⟨position, hlocate⟩ := Program.locate_of_mem (hanchor.trans hok) hlists (by simp)
      rcases h.agrees.scopes.tempTypes u.span targets (Hazard.analyze targets u.values) with
        ⟨p, h₁, h₂⟩ | ⟨types, types', h₁, h₂, htypes⟩
      · have hverdict : s.verdict u ids = .ok (.error (.problem p)) := by
          simp only [State.verdict, hmethod, htargets, hlocate, h₂, bind, Except.bind]
          rfl
        refine ⟨_, hproblem p hverdict, ?_, .of_eq _ _ rfl rfl rfl⟩
        simp only [Rewrite.handle, htargets, h₁]
        exact h.reject
      · obtain ⟨s', hcarry, hat, hsteps⟩ := carryOut_eq hk h hc hok hlists position u targets
          hvalues hnodup hf htypes
        refine ⟨s', ?_, ?_, hsteps⟩
        · simp only [State.handle, State.verdict, hmethod, htargets, hlocate, h₂, bind, Except.bind,
            pure, Except.pure]
          exact hcarry
        · simp only [Rewrite.handle, htargets, h₁]
          exact hat

end Handling

end TupleAssign.Desugar
