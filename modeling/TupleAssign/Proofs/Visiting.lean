import TupleAssign.Proofs.Simulation
/-!
# Visiting expressions

The walk over an expression handles exactly the unpackings that the rewrite lists for it, in the
same order (`exprTo_visits`). An expression is never changed, so it is enough that it was stored when
the visit of its statement began.
-/

namespace TupleAssign.Desugar

open Store Rewrite

/-! ## Running a walk -/

section Running

variable {α β : Type} {s s' : State}

theorem run_bind {m : Walk α} {k : α → Walk β} {a : α} (h : m s = .ok (a, s')) :
    (m >>= k) s = k a s' := by
  simp only [bind, StateT.bind, h, Except.bind]

theorem run_read {f : Store → Except Fault α} {a : α} (h : f s.program.store = .ok a) :
    Walk.read f s = .ok (a, s) := by
  simp only [Walk.read, bind, StateT.bind, get, getThe, MonadStateOf.get, StateT.get, pure,
    Except.pure, Except.bind, liftExcept, h]
  rfl

theorem run_withFrame {frame : Frame} {act : Walk Unit}
    (h : act { s with path := frame :: s.path } = .ok ((), s')) :
    Walk.withFrame frame act s = .ok ((), { s' with path := s'.path.tail }) := by
  have hpush : (modify fun s => { s with path := frame :: s.path } : Walk Unit) s =
      .ok ((), { s with path := frame :: s.path }) := rfl
  rw [Walk.withFrame, run_bind hpush, run_bind h]
  rfl

theorem run_inScope {act : Walk Unit}
    (h : act { s with scopes := s.scopes.push } = .ok ((), s')) :
    Walk.inScope act s = .ok ((), { s' with scopes := s'.scopes.pop }) := by
  have hpush : (modify fun s => { s with scopes := s.scopes.push } : Walk Unit) s =
      .ok ((), { s with scopes := s.scopes.push }) := rfl
  rw [Walk.inScope, run_bind hpush, run_bind h]
  rfl

end Running

/-! ## Expressions -/

/-- From any state in which the visit of a statement has come as far as its rewrite, and whose store
has grown from `st`, the action handles these unpackings as the rewrite does. -/
def Visits (k : Spot) (st : Store) (m : Walk Unit) (us : List (Unpacking Name)) : Prop :=
  ∀ s g place, At k s g place → OnPath k s.path →
    st.Grows s.program.store (fun _ => True) →
    ∃ s', m s = .ok ((), s') ∧
      At k s' (us.foldlM (handle k.inMethod) place g).2
        (us.foldlM (handle k.inMethod) place g).1 ∧
      Steps k.owner [] s s'

section Rules

variable {k : Spot} {st : Store} {us us' : List (Unpacking Name)}

theorem Visits.pure : Visits k st (Pure.pure ()) [] :=
  fun s _ _ h _ _ => ⟨s, rfl, h, .of_eq _ _ rfl rfl rfl⟩

theorem Visits.seq {m m' : Walk Unit} (h : Visits k st m us) (h' : Visits k st m' us') :
    Visits k st (m >>= fun _ => m') (us ++ us') := by
  intro s g place hat hpath hst
  obtain ⟨s₁, hrun₁, hat₁, hsteps₁⟩ := h s g place hat hpath hst
  obtain ⟨s₂, hrun₂, hat₂, hsteps₂⟩ := h' s₁ _ _ hat₁ (hsteps₁.path ▸ hpath)
    (hst.trans (hsteps₁.store.mono fun _ _ _ => trivial))
  refine ⟨s₂, by rw [run_bind hrun₁, hrun₂], ?_, hsteps₁.trans hsteps₂⟩
  rw [List.foldlM_append]
  exact hat₂

theorem Visits.frame {m : Walk Unit} (h : Visits k st m us) (id : ExprId) :
    Visits k st (Walk.withFrame (.expr id) m) us := by
  intro s g place hat hpath hst
  obtain ⟨s', hrun, hat', hsteps⟩ := h { s with path := .expr id :: s.path } g place
    ⟨hat.agrees.setPath _, hat.place, hat.grown⟩ hpath hst
  refine ⟨_, run_withFrame hrun, ?_, hsteps.congr rfl rfl rfl rfl (by simp [hsteps.path])⟩
  exact ⟨hat'.agrees.setPath _, hat'.place, hat'.grown⟩

/-- What is read is the same in every store that has grown from `st`. -/
theorem Visits.read {α : Type} {f : Store → Except Fault α} {a : α} {cont : α → Walk Unit}
    (hf : ∀ st', st.Grows st' (fun _ => True) → f st' = .ok a)
    (h : Visits k st (cont a) us) : Visits k st (Walk.read f >>= cont) us := by
  intro s g place hat hpath hst
  obtain ⟨s', hrun, hrest⟩ := h s g place hat hpath hst
  exact ⟨s', by rw [run_bind (run_read (hf _ hst)), hrun], hrest⟩

end Rules

/-- One side of an unpacking is a call with its arguments. -/
theorem side?_eq_some {ν : Type} [DecidableEq ν] {r : Resolver ν} {e : Tree.Expr ν} {a : Side ν}
    (h : r.side? e = some a) :
    ∃ span recv method, e = .call span recv method a.args := by
  cases e with
  | call span recv method args =>
    obtain ⟨form, -, rfl⟩ := Option.map_eq_some_iff.1 h
    exact ⟨span, recv, method, rfl⟩
  | _ => simp [Resolver.side?] at h

/-- An unpacking assigns one side to the other. -/
theorem unpacking?_eq_some {ν : Type} [DecidableEq ν] {r : Resolver ν} {e : Tree.Expr ν}
    {u : Unpacking ν}
    (h : r.unpacking? e = some u) :
    ∃ span t v, e = .assign span t v ∧ r.side? t = some u.left ∧ r.side? v = some u.right := by
  cases e with
  | assign span t v =>
    simp only [Resolver.unpacking?] at h
    split at h
    · next left right hleft hright =>
      cases h
      exact ⟨span, t, v, rfl, hleft, hright⟩
    · cases h
  | _ => simp [Resolver.unpacking?] at h

/-- The arguments of a stored call. -/
theorem arguments_of_exprAt {ν : Type} {st : Store} {sp : Spelling ν} {span : Span}
    {recv : Option (Tree.Expr ν)} {method : ν} {args : List (Tree.Expr ν)} {id : ExprId}
    {f : List NodeRef} (h : ExprAt st sp (.call span recv method args) id f) :
    ∃ ids fa, Walk.argumentIds id st = .ok ids ∧ fa.Sublist f ∧ Along (ExprAt st sp) args ids fa := by
  obtain ⟨node, ids, ft, fo, hnode, head, hids, -, hops, rfl⟩ := exprAt_iff.1 h
  cases head with
  | @call n s recv' _ _ slice _ hr _ =>
    simp only [operands, bind_eq_ok_iff, ok_pure_iff] at hids
    obtain ⟨as, has, rfl⟩ := hids
    have hlen : recv.toList.length = recv'.toList.length := by
      cases recv <;> cases recv' <;> simp_all
    obtain ⟨f₁, f₂, rfl, -, hargs⟩ := (Along.append_iff hlen).1 hops
    refine ⟨as, f₂, ?_, ?_, hargs⟩
    · simp [Walk.argumentIds, expr_eq_ok_iff.2 hnode, has, bind, Except.bind]
    · exact ((List.sublist_append_right _ _).trans (List.sublist_append_right _ _)).cons _

section Exprs

variable {r : Resolver Name} {k : Spot} {st : Store}

/-- An unpacking met on the way is handled with the ids of its values. -/
theorem unpacking_visits (hk : k.Sound) {span : Span} {t v : Tree.Expr Name} {id v' : ExprId}
    {f fv : List NodeRef} {u : Unpacking Name} (h : ExprAt st Verbatim (.assign span t v) id f)
    (hnodup : f.Nodup) (hv : ExprAt st Verbatim v v' fv) (hsub : fv.Sublist f)
    (hf : ∀ n ∈ f, n ∈ k.nodes)
    (hu : r.unpacking? (.assign span t v) = some u) {cont : Walk Unit} :
    Visits k st (do
      match ← Walk.unpackingAt? r id v' with
      | some (u, values) => Walk.handle u values
      | none => cont) [u] := by
  obtain ⟨sv, recv, method, rfl⟩ : ∃ sv recv method, v = .call sv recv method u.values := by
    obtain ⟨_, _, _, ⟨⟩, -, hright⟩ := unpacking?_eq_some hu
    exact side?_eq_some hright
  intro s g place hat hpath hst
  have hnow : ExprAt s.program.store Verbatim (.call sv recv method u.values) v' fv :=
    hv.grow_inert hst (fun _ _ hn => hn) rfl
  have hread : s.program.store.exprTree id =
      .ok (.assign span t (.call sv recv method u.values)) :=
    readExpr_eq (h.grow_inert hst (fun _ _ hn => hn) rfl) hnodup
  obtain ⟨ids, fa, hids, hfa, hargs⟩ := arguments_of_exprAt hnow
  obtain ⟨s', hhandle, hat', hsteps⟩ := handle_eq hk hat hpath u hargs
    ((hfa.trans hsub).nodup hnodup) (fun n hn => hf n ((hfa.trans hsub).subset hn))
  have hat? : Walk.unpackingAt? r id v' s = .ok (some (u, ids), s) := by
    rw [Walk.unpackingAt?, run_bind (run_read hread)]
    simp only [hu]
    rw [run_bind (run_read hids)]
    rfl
  refine ⟨s', ?_, hat', hsteps⟩
  rw [run_bind hat?]
  simp only [Walk.handle, bind, StateT.bind, get, getThe, MonadStateOf.get, StateT.get, pure,
    Except.pure, Except.bind, hhandle]
  rfl

/-- An assignment that is no unpacking is gone through as any other expression. -/
theorem no_unpacking_visits {span : Span}
    {t v : Tree.Expr Name} {id v' : ExprId} {f : List NodeRef} {us : List (Unpacking Name)}
    (h : ExprAt st Verbatim (.assign span t v) id f) (hnodup : f.Nodup)
    (hu : r.unpacking? (.assign span t v) = none) {cont : Walk Unit}
    (hcont : Visits k st cont us) :
    Visits k st (do
      match ← Walk.unpackingAt? r id v' with
      | some (u, values) => Walk.handle u values
      | none => cont) us := by
  intro s g place hat hpath hst
  have hread : s.program.store.exprTree id = .ok (.assign span t v) :=
    readExpr_eq (h.grow_inert hst (fun _ _ hn => hn) rfl) hnodup
  have hat? : Walk.unpackingAt? r id v' s = .ok (none, s) := by
    rw [Walk.unpackingAt?, run_bind (run_read hread)]
    simp only [hu]
    rfl
  obtain ⟨s', hrun, hrest⟩ := hcont s g place hat hpath hst
  exact ⟨s', by rw [run_bind hat?]; exact hrun, hrest⟩

/-- Nodes of an expression to be visited: they are distinct, belong to the statement, and no more
levels are needed than there are. -/
structure Fits (k : Spot) (levels : Nat) (f : List NodeRef) : Prop where
  nodup : f.Nodup
  nodes : ∀ n ∈ f, n ∈ k.nodes
  levels_le : sortCount .expr f ≤ levels

theorem Fits.of_sublist {levels : Nat} {f f' : List NodeRef} (h : Fits k levels f')
    (hsub : f.Sublist f') : Fits k levels f where
  nodup := hsub.nodup h.nodup
  nodes n hn := h.nodes n (hsub.subset hn)
  levels_le := Nat.le_trans (sortCount_le_of_sublist hsub) h.levels_le

theorem Fits.left {levels : Nat} {f f' : List NodeRef} (h : Fits k levels (f ++ f')) :
    Fits k levels f :=
  h.of_sublist (List.sublist_append_left f f')

theorem Fits.right {levels : Nat} {f f' : List NodeRef} (h : Fits k levels (f ++ f')) :
    Fits k levels f' :=
  h.of_sublist (List.sublist_append_right f f')

/-- What is below a node needs one level less. -/
theorem Fits.below {levels : Nat} {n : NodeRef} {f : List NodeRef} (h : Fits k levels (n :: f))
    (hn : n.sort = .expr) : ∃ m, levels = m + 1 ∧ Fits k m f := by
  obtain ⟨m, rfl, hle⟩ := exists_level hn h.levels_le
  exact ⟨m, rfl, (List.nodup_cons.1 h.nodup).2,
    fun m hm => h.nodes m (List.mem_cons_of_mem n hm), hle⟩

mutual

theorem exprTo_visits (hk : k.Sound) :
    ∀ (e : Tree.Expr Name) (levels : Nat) {id : ExprId} {f : List NodeRef},
    ExprAt st Verbatim e id f → Fits k levels f → Visits k st (Walk.exprTo r levels id) (unpackings r e)
  | e, levels, id, f, h, hf => by
    obtain ⟨node, ids, ft, fo, hnode, head, hids, -, hops, rfl⟩ := exprAt_iff.1 h
    obtain ⟨levels, rfl, hbelow⟩ := hf.below rfl
    have hfo := hbelow.right
    rw [Walk.exprTo]
    refine Visits.frame (Visits.read (a := node) (fun st' hg =>
      expr_eq_ok_iff.2 (hg.expr_eq hnode)) ?_) id
    cases head with
    | int | bool | str | null | self | ident => exact .pure
    | field span x e' =>
      cases hids
      exact exprTo_visits hk e' levels (Along.single_iff.1 hops) hfo
    | index span x y l r' =>
      cases hids
      obtain ⟨f₁, f₂, rfl, hl, hr⟩ := Along.cons_cons_iff.1 hops
      exact .seq (exprTo_visits hk l levels hl hfo.left)
        (exprTo_visits hk r' levels (Along.single_iff.1 hr) hfo.right)
    | @call n s recv recv' span slice args hrecv hn =>
      simp only [operands, bind_eq_ok_iff, ok_pure_iff] at hids
      obtain ⟨as, has, rfl⟩ := hids
      have hread : ∀ st', st.Grows st' (fun _ => True) → st'.exprList slice = .ok as :=
        fun st' hg => hg.exprList_eq has
      cases recv with
      | none =>
        cases recv' with
        | some _ => cases hrecv
        | none =>
          refine .seq .pure (.read hread ?_)
          exact exprsTo_visits hk args levels hops hfo
      | some x =>
        cases recv' with
        | none => cases hrecv
        | some e' =>
          obtain ⟨f₁, f₂, rfl, he, hargs⟩ := Along.cons_cons_iff.1 hops
          refine .seq ?_ (.read hread ?_)
          · exact exprTo_visits hk e' levels he hfo.left
          · exact exprsTo_visits hk args levels hargs hfo.right
    | create span t t' slice args =>
      refine .read (fun st' hg => hg.exprList_eq hids) ?_
      exact exprsTo_visits hk args levels hops hfo
    | unary span op x e' =>
      cases hids
      exact exprTo_visits hk e' levels (Along.single_iff.1 hops) hfo
    | binary span op x y l r' =>
      cases hids
      obtain ⟨f₁, f₂, rfl, hl, hr⟩ := Along.cons_cons_iff.1 hops
      exact .seq (exprTo_visits hk l levels hl hfo.left)
        (exprTo_visits hk r' levels (Along.single_iff.1 hr) hfo.right)
    | conditional span x y z c l r' =>
      cases hids
      obtain ⟨f₀, _, rfl, hc, hlr⟩ := Along.cons_cons_iff.1 hops
      obtain ⟨f₁, f₂, rfl, hl, hr⟩ := Along.cons_cons_iff.1 hlr
      exact .seq (exprTo_visits hk c levels hc hfo.left)
        (.seq (exprTo_visits hk l levels hl hfo.right.left)
          (exprTo_visits hk r' levels (Along.single_iff.1 hr) hfo.right.right))
    | assign span x y l r' =>
      cases hids
      obtain ⟨f₁, f₂, rfl, hl, hr⟩ := Along.cons_cons_iff.1 hops
      have hr := Along.single_iff.1 hr
      cases hu : r.unpacking? (.assign span l r') with
      | some u =>
        -- The walk stops here: what is inside an unpacking is not visited.
        have hsub : f₂.Sublist (id.ref :: (ft ++ (f₁ ++ f₂))) :=
          ((List.sublist_append_right _ _).trans (List.sublist_append_right _ _)).cons _
        simp only [unpackings, hu]
        exact unpacking_visits hk h hf.nodup hr hsub hf.nodes hu
      | none =>
        simp only [unpackings, hu]
        refine no_unpacking_visits h hf.nodup hu (.seq ?_ ?_)
        · exact exprTo_visits hk l levels hl hfo.left
        · exact exprTo_visits hk r' levels hr hfo.right

theorem exprsTo_visits (hk : k.Sound) :
    ∀ (es : List (Tree.Expr Name)) (levels : Nat) {ids : List ExprId} {f : List NodeRef},
    Along (ExprAt st Verbatim) es ids f → Fits k levels f →
    Visits k st (ids.forM (Walk.exprTo r levels)) (unpackingsAll r es)
  | [], levels, ids, f, h, hf => by
    cases h
    exact .pure
  | e :: es, levels, ids, f, h, hf => by
    obtain ⟨id, ids, f₁, f₂, rfl, rfl, head, tail⟩ := Along.cons_iff.1 h
    rw [unpackingsAll]
    exact .seq (exprTo_visits hk e levels head hf.left)
      (exprsTo_visits hk es levels tail hf.right)

end

end Exprs

end TupleAssign.Desugar
