import TupleAssign.Proofs.Assembly
import TupleAssign.Proofs.Respelling
/-!
# Stored names

A unit that is stored with its names spelled by a table is also stored verbatim, as a tree of names
(`UnitAt.exists_verbatim`). The other way round, a tree of names can be spelled out through any map
(`UnitAt.respell`).

A table spells only some names. There are two maps that agree with it, keep all names apart, and
differ on every name that the table does not know (`Interner.exists_spelledAs`). So what both spell
alike is known to the table.
-/

namespace TupleAssign

open Store

/-! ## Spelling a stored tree out -/

namespace Tree

def Any.map {ν μ : Type} (f : ν → μ) : Any ν → Any μ
  | .ty t => .ty (t.map f)
  | .expr e => .expr (e.map f)
  | .stmt s => .stmt (s.map f)
  | .arm a => .arm (a.map f)

theorem Any.parts_map {ν μ : Type} (f : ν → μ) (t : Any ν) :
    (t.map f).parts = t.parts.map (Any.map f) := by
  cases t with
  | ty t => cases t <;> simp [Any.map, Ty.map, Any.parts]
  | expr e =>
    cases e with
    | call s r n args =>
      cases r <;> simp [Any.map, Expr.map, Any.parts, Expr.typeParts, Expr.operands]
    | _ => simp [Any.map, Expr.map, Any.parts, Expr.typeParts, Expr.operands]
  | stmt s =>
    cases s with
    | localVar s t n init isFinal => cases init <;> simp [Any.map, Stmt.map, Any.parts]
    | ifElse s c t e => cases e <;> simp [Any.map, Stmt.map, Any.parts]
    | returnWith s v => cases v <;> simp [Any.map, Stmt.map, Any.parts]
    | _ => simp [Any.map, Stmt.map, Any.parts]
  | arm a =>
    obtain ⟨label, ss⟩ := a
    cases label <;> simp [Any.map, Arm.map, Any.parts]

/-- The name at the root of a tree. -/
def Any.name? {ν : Type} : Any ν → Option ν
  | .ty (.named n _) => some n
  | .expr (.str _ n) | .expr (.ident _ n) | .expr (.field _ _ n) | .expr (.call _ _ n _) => some n
  | .stmt (.localVar _ _ n _ _) => some n
  | _ => none

theorem Any.name?_map {ν μ : Type} (f : ν → μ) (t : Any ν) : (t.map f).name? = t.name?.map f := by
  cases t with
  | ty t => cases t <;> rfl
  | expr e =>
    cases e with
    | call s r n args => cases r <;> rfl
    | _ => rfl
  | stmt s =>
    cases s with
    | ifElse s c t e => cases e <;> rfl
    | _ => rfl
  | arm a => cases a; rfl

end Tree

section Respell

variable {f f' : Name → String} {sp : Spelling} {st : Store}

theorem Head.respell {n : NodeRef} {t : Tree.Any Name} (h : Head Verbatim st n t)
    (hsp : ∀ n, t.name? = some n → sp n (f n)) : Head sp st n (t.map f) := by
  cases t with
  | ty t =>
    obtain ⟨hsort, node, hnode, head⟩ := h
    refine ⟨hsort, node, hnode, ?_⟩
    cases head with
    | primitive p => exact .primitive p
    | named slice args h =>
      subst h
      exact .named slice _ (hsp _ rfl)
    | array id t => exact .array id _
  | expr e =>
    obtain ⟨hsort, node, hnode, head⟩ := h
    refine ⟨hsort, node, hnode, ?_⟩
    cases head with
    | int span v => exact .int span v
    | bool span v => exact .bool span v
    | null span => exact .null span
    | self span => exact .self span
    | str span h =>
      subst h
      exact .str span (hsp _ rfl)
    | ident span h =>
      subst h
      exact .ident span (hsp _ rfl)
    | field span r r' h =>
      subst h
      exact .field span r _ (hsp _ rfl)
    | call span slice args hr h =>
      subst h
      rw [Tree.Expr.map_call]
      exact .call span slice _ (by simpa using hr) (hsp _ rfl)
    | index span r i => exact .index span r i _ _
    | create span t t' slice args => exact .create span t _ slice _
    | unary span op e => exact .unary span op e _
    | binary span op l r => exact .binary span op l r _ _
    | conditional span c t e => exact .conditional span c t e _ _ _
    | assign span t v => exact .assign span t v _ _
  | stmt s =>
    obtain ⟨hsort, node, hnode, head⟩ := h
    refine ⟨hsort, node, hnode, ?_⟩
    cases head with
    | expr span e => exact .expr span e _
    | localVar span t t' isFinal hi h =>
      subst h
      exact .localVar span t _ isFinal (by simpa using hi) (hsp _ rfl)
    | block span b ss => exact .block span b _
    | ifElse span c c' t t' he =>
      rw [Tree.Stmt.map_ifElse]
      exact .ifElse span c _ t _ (by simpa using he)
    | whileLoop span c c' b => exact .whileLoop span c _ b _
    | switch span sel sel' slice arms => exact .switch span sel _ slice _
    | returnWith span hv => exact .returnWith span (by simpa using hv)
    | breakOut span => exact .breakOut span
    | continueOn span => exact .continueOn span
    | empty span => exact .empty span
  | arm a =>
    obtain ⟨hsort, node, hnode, head⟩ := h
    refine ⟨hsort, node, hnode, ?_⟩
    cases head with
    | mk slice span ss hl => exact .mk slice span _ (by simpa using hl)

/-- Entries that two maps take to the same are stored as what they are taken to. -/
theorem Along.respell {α β γ : Type} {R : α → β → List NodeRef → Prop}
    {S : γ → β → List NodeRef → Prop} {g g' : α → γ} {as : List α} {bs : List β} {fp : List NodeRef}
    (h : Along R as bs fp) (heq : as.map g = as.map g')
    (hS : ∀ a b f, R a b f → g a = g' a → S (g a) b f) : Along S (as.map g) bs fp := by
  induction h with
  | nil => exact .nil
  | cons head _ ih =>
    obtain ⟨hhead, htail⟩ := List.cons.inj heq
    exact .cons (hS _ _ _ head hhead) (ih htail)

theorem Along.respell_option {α β γ : Type} {R : α → β → List NodeRef → Prop}
    {S : γ → β → List NodeRef → Prop} {g g' : α → γ} {o : Option α} {o' : Option β}
    {fp : List NodeRef} (h : Along R o.toList o'.toList fp) (heq : o.map g = o.map g')
    (hS : ∀ a b f, R a b f → g a = g' a → S (g a) b f) :
    Along S (o.map g).toList o'.toList fp := by
  rw [Option.toList_map]
  refine h.respell ?_ hS
  rw [← Option.toList_map, ← Option.toList_map, heq]

variable (hsp : ∀ n, f n = f' n → sp n (f n))

include hsp

theorem respell_name {m n : Name} (h : Verbatim m n) (heq : f n = f' n) : sp m (f n) := by
  cases h
  exact hsp _ heq

/-- A tree of names that two maps spell alike is stored as they spell it, if the names on which they
agree are spelled so. -/
theorem Stored.respell {t : Tree.Any Name} {n : NodeRef} {fp : List NodeRef}
    (h : Stored st Verbatim t n fp) (heq : t.map f = t.map f') : Stored st sp (t.map f) n fp := by
  revert heq
  refine Stored.induct (P := fun t n fp => t.map f = t.map f' → Stored st sp (t.map f) n fp) ?_ h
  intro t n ns fp head slots ih heq
  have hname := congrArg Tree.Any.name? heq
  have hparts := congrArg Tree.Any.parts heq
  rw [Tree.Any.name?_map, Tree.Any.name?_map] at hname
  rw [Tree.Any.parts_map, Tree.Any.parts_map] at hparts
  refine .mk (head.respell fun m hm => hsp m ?_) slots ?_
  · rw [hm] at hname
    exact Option.some.inj hname
  · rw [Tree.Any.parts_map]
    exact ih.respell hparts fun _ _ _ hpart => hpart.2

theorem ExprAt.respell {e : Tree.Expr Name} {id : ExprId} {fp : List NodeRef}
    (h : ExprAt st Verbatim e id fp) (heq : e.map f = e.map f') : ExprAt st sp (e.map f) id fp :=
  Stored.respell hsp h (congrArg Tree.Any.expr heq)

theorem TyAt.respell {t : Tree.Ty Name} {id : TypeId} {fp : List NodeRef}
    (h : TyAt st Verbatim t id fp) (heq : t.map f = t.map f') : TyAt st sp (t.map f) id fp :=
  Stored.respell hsp h (congrArg Tree.Any.ty heq)

theorem BodyAt.respell {b : Tree.Body Name} {b' : Node.Block} {fp : List NodeRef}
    (h : BodyAt st Verbatim b b' fp) (heq : b.map f = b.map f') : BodyAt st sp (b.map f) b' fp := by
  obtain ⟨hspan, ids, hids, hss⟩ := h
  refine ⟨hspan, ids, hids, hss.respell (congrArg Tree.Body.stmts heq) fun s id fs hs hs' => ?_⟩
  exact Stored.respell hsp hs (congrArg Tree.Any.stmt hs')

theorem ParamAt.respell {p : Tree.Param Name} {p' : Node.Param} {fp : List NodeRef}
    (h : ParamAt st Verbatim p p' fp) (heq : Tree.mapParam f p = Tree.mapParam f' p) :
    ParamAt st sp (Tree.mapParam f p) p' fp := by
  obtain ⟨hname, hspan, htype⟩ := h
  exact ⟨respell_name hsp hname (congrArg Param.name heq), hspan,
    htype.respell hsp (congrArg Param.type heq)⟩

theorem MemberAt.respell {m : Tree.Member Name} {m' : Node.Member} {fp : List NodeRef}
    (h : MemberAt st Verbatim m m' fp) (heq : Tree.mapMember f m = Tree.mapMember f' m) :
    MemberAt st sp (Tree.mapMember f m) m' fp := by
  cases h with
  | field name isStatic span type init =>
    have heq := Member.field.inj heq
    refine .field (respell_name hsp name (congrArg Field.name heq)) isStatic span
      (type.respell hsp (congrArg Field.type heq)) ?_
    exact init.respell_option (congrArg Field.init heq) fun _ _ _ he => he.respell hsp
  | method name isStatic span result params body =>
    have heq := Member.method.inj heq
    refine .method (respell_name hsp name (congrArg Method.name heq)) isStatic span ?_ ?_ ?_
    · exact result.respell_option (congrArg Method.result heq) fun _ _ _ ht => ht.respell hsp
    · exact params.respell (congrArg Method.params heq) fun _ _ _ hp => hp.respell hsp
    · exact body.respell_option (congrArg Method.body heq) fun _ _ _ hb => hb.respell hsp
  | initializer isStatic span body =>
    have heq := Member.initializer.inj heq
    exact .initializer isStatic span (body.respell hsp (congrArg Initializer.body heq))

theorem ClassAt.respell {c : Tree.Class Name} {c' : Node.Class} {fp : List NodeRef}
    (h : ClassAt st Verbatim c c' fp) (heq : Tree.mapClass f c = Tree.mapClass f' c) :
    ClassAt st sp (Tree.mapClass f c) c' fp := by
  obtain ⟨hname, hspan, hmembers⟩ := h
  exact ⟨respell_name hsp hname (congrArg Class.name heq), hspan,
    hmembers.respell (congrArg Class.members heq) fun _ _ _ hm => hm.respell hsp⟩

theorem ImportAt.respell {i : Tree.Import Name} {i' : Node.Import} {fp : List NodeRef}
    (h : ImportAt Verbatim i i' fp) (heq : i.map f = i.map f') : ImportAt sp (i.map f) i' fp :=
  ⟨respell_name hsp h.1 (congrArg Import.path heq), h.2⟩

theorem UnitAt.respell {p : Program} {u : Tree.CompilationUnit Name} {fp : List NodeRef}
    (h : UnitAt p Verbatim u fp) (heq : Tree.mapUnit f u = Tree.mapUnit f' u) :
    UnitAt p sp (Tree.mapUnit f u) fp := by
  obtain ⟨hpackage, hspan, himports, hclasses⟩ := h
  exact ⟨respell_name hsp hpackage (congrArg CompilationUnit.package heq), hspan,
    himports.respell (congrArg CompilationUnit.imports heq) fun _ _ _ hi => hi.respell hsp,
    hclasses.respell (congrArg CompilationUnit.classes heq) fun _ _ _ hc => hc.respell hsp⟩

end Respell

/-- A unit stored with its names spelled by a table is stored verbatim as well, and is what any map
that agrees with the table makes of that. -/
theorem UnitAt.exists_verbatim {p : Program} {names : Interner} {u : Tree.CompilationUnit}
    {fp : List NodeRef} (h : UnitAt p names.Knows u fp) (hnodup : fp.Nodup) :
    ∃ v fv, UnitAt p Verbatim v fv ∧ fv.Nodup ∧ ∀ f, names.SpelledAs f → Tree.mapUnit f v = u := by
  have hverbatim : ∃ v fv, UnitAt p Verbatim v fv ∧ fv.Nodup :=
    (h.wellFormed hnodup).exists_unitAt fun n => ⟨n, rfl⟩
  obtain ⟨v, fv, hv, hnodup'⟩ := hverbatim
  refine ⟨v, fv, hv, hnodup', fun f hf => ?_⟩
  -- Both are what is read at the unit, with its names spelled by the map.
  have hspelled : UnitAt p (Spells f) (Tree.mapUnit f v) fv := hv.respell (fun _ _ => rfl) rfl
  exact Except.ok.inj ((hspelled.traverse_eq hnodup').symm.trans ((h.imp hf).traverse_eq hnodup))

/-! ## Maps that agree with a table -/

namespace Interner

variable (t : Interner)

/-- The characters of the strings of a table. -/
def characters : List Char := (t.strings.toList.map String.toList).flatten

/-- Spells the names of a table as the table does, and any other as some `c`s in a row, more for
every further name and more than there are characters in the table. -/
def padded (c : Char) (n : Name) : String :=
  t.strings[n.index]?.getD
    (String.ofList (List.replicate (t.characters.length + 1 + n.index) c))

variable {t}

theorem padded_of_knows {n : Name} {s : String} (h : t.Knows n s) (c : Char) :
    t.padded c n = s := by
  simp only [Knows] at h
  rw [padded, h, Option.getD_some]

theorem length_le_of_knows {n : Name} {s : String} (h : t.Knows n s) :
    s.length ≤ t.characters.length := by
  have hmem : s ∈ t.strings.toList := Array.mem_toList_iff.2 (Array.mem_of_getElem? h)
  have hsub : s.toList.Sublist t.characters := List.sublist_flatten_of_mem (List.mem_map_of_mem hmem)
  exact hsub.length_le

theorem padded_cases (n : Name) : (∃ s, t.Knows n s) ∨ ∀ c, t.padded c n =
    String.ofList (List.replicate (t.characters.length + 1 + n.index) c) := by
  cases h : t.strings[n.index]? with
  | some s => exact .inl ⟨s, h⟩
  | none => exact .inr fun c => by rw [padded, h, Option.getD_none]

theorem padded_injective (c : Char) : Function.Injective (t.padded c) := by
  intro n m h
  rcases t.padded_cases n with ⟨s, hn⟩ | hn <;> rcases t.padded_cases m with ⟨s', hm⟩ | hm
  · rw [padded_of_knows hn, padded_of_knows hm] at h
    exact hn.inj (h ▸ hm)
  · have hle := length_le_of_knows hn
    rw [padded_of_knows hn, hm c] at h
    simp [h] at hle
    omega
  · have hle := length_le_of_knows hm
    rw [padded_of_knows hm, hn c] at h
    simp [← h] at hle
    omega
  · rw [hn c, hm c] at h
    have hlen := congrArg String.length h
    obtain ⟨i⟩ := n
    obtain ⟨j⟩ := m
    simp at hlen
    rw [hlen]

/-- There are two maps that keep names apart and agree with the table. What they spell alike is in
the table. -/
theorem exists_spelledAs (t : Interner) : ∃ f f' : Name → String, Function.Injective f ∧
    Function.Injective f' ∧ t.SpelledAs f ∧ t.SpelledAs f' ∧ ∀ n, f n = f' n → t.Knows n (f n) := by
  refine ⟨t.padded 'a', t.padded 'b', padded_injective 'a', padded_injective 'b',
    fun _ _ h => padded_of_knows h 'a', fun _ _ h => padded_of_knows h 'b', fun n h => ?_⟩
  rcases t.padded_cases n with ⟨s, hn⟩ | hn
  · rw [padded_of_knows hn]
    exact hn
  · rw [hn, hn] at h
    have hlist := String.ofList_injective h
    rw [Nat.add_right_comm, List.replicate_succ, List.replicate_succ] at hlist
    exact absurd (List.cons.inj hlist).1 (by decide)

end Interner

end TupleAssign
