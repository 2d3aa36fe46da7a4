import Mathlib.Data.List.Forall2
import TupleAssign.Proofs.Loading
import TupleAssign.Proofs.Preorder
import TupleAssign.Proofs.StoredSites
/-!
# Walks over a stored unit

The sites that a walk over ids comes to are read back as the sites of the tree
(`SiteAt.readSite_eq`). So the walk can decide on what it reads whether to enter a site, and comes
to what the walk over the tree comes to with the same decisions (`UnitAt.visits_read`). The
expressions, statements and types among the sites are nodes of the store. As the nodes of a loaded
unit are distinct, the walk comes to each of them once.
-/

namespace TupleAssign

open Store
open TupleAssign.Tree (Any Site)

/-! ## Reading the sites -/

section Reading

variable {ν : Type} {st : Store} {spell : Name → ν}

theorem eq_ok_of_map_eq {ε α β : Type} {c : α → β} (hc : Function.Injective c) {x : Except ε α}
    {a : α} (h : x.map c = .ok (c a)) : x = .ok a := by
  cases x with
  | error e => cases h
  | ok b => exact congrArg Except.ok (hc (Except.ok.inj h))

theorem mapM_eq_of_forall₂ {ε α β : Type} {g : β → Except ε α} {as : List α} {bs : List β}
    (h : List.Forall₂ (fun a b => g b = .ok a) as bs) : bs.mapM g = .ok as := by
  induction h with
  | nil => rfl
  | cons head _ ih => simp [List.mapM_cons, head, ih, bind, Except.bind, pure, Except.pure]

theorem SiteAt.readSite_eq {s : Site ν} {n : Node.Site} {fp : List NodeRef}
    (h : SiteAt st (Spells spell) s n fp) (hnodup : fp.Nodup) (hspans : st.BlocksSpanned) :
    st.readSite spell n = .ok s := by
  cases h with
  | unit h => exact congrArg (Except.map Site.unit) (h.traverse_eq hnodup)
  | importDecl h => exact congrArg (Except.map Site.importDecl) h.traverse_eq
  | classDecl h => exact congrArg (Except.map Site.classDecl) (h.traverse_eq hnodup)
  | fieldDecl h =>
    have hfield := eq_ok_of_map_eq (fun _ _ => Member.field.inj) (h.traverse_eq hnodup)
    exact congrArg (Except.map Site.fieldDecl) hfield
  | methodDecl h =>
    have hmethod := eq_ok_of_map_eq (fun _ _ => Member.method.inj) (h.traverse_eq hnodup)
    exact congrArg (Except.map Site.methodDecl) hmethod
  | initializerDecl h =>
    have hinit := eq_ok_of_map_eq (fun _ _ => Member.initializer.inj) (h.traverse_eq hnodup)
    exact congrArg (Except.map Site.initializerDecl) hinit
  | param h => exact congrArg (Except.map Site.param) (h.traverse_eq hnodup)
  | @block span ss b ids fp hspan hids h =>
    have hspan : b.span = span := by
      obtain hspan | ⟨i, hi⟩ := hspan
      · exact hspan
      · exact hspans i b span hi
    have hmap := h.mapM_eq (g := st.readStmt spell)
      fun s id f hf hs => readStmt_eq hs (hf.nodup hnodup)
    simp [readSite, readStmts, hids, hmap, hspan, bind, Except.bind, pure, Except.pure]
  | stmt hnode h => exact congrArg (Except.map Site.stmt) (readStmt_eq h hnodup)
  | expr hnode h => exact congrArg (Except.map Site.expr) (readExpr_eq h hnodup)
  | type hnode h => exact congrArg (Except.map Site.type) (readType_eq h hnodup)

/-- The walk that decides on what it reads comes to what is read as the sites of the tree. -/
theorem UnitAt.visits_read {p : Program} {u : Tree.CompilationUnit ν} {fp : List NodeRef}
    (h : UnitAt p (Spells spell) u fp) (hnodup : fp.Nodup) (hspans : p.store.BlocksSpanned)
    (enter : Site ν → Bool) :
    ∃ ns, p.visits (fun n => (p.store.readSite spell n).toOption.all enter) = .ok ns ∧
      ns.mapM (p.store.readSite spell) = .ok (Tree.unitVisits enter u) := by
  have hent : EnteredAlike p.store (Spells spell) enter
      fun n => (p.store.readSite spell n).toOption.all enter := by
    intro s n f hs hf
    have hread := hs.readSite_eq hf hspans
    exact congrArg (fun site => site.toOption.all enter) hread
  obtain ⟨ns, hns, hall, -⟩ := h.visits hnodup hent
  refine ⟨ns, hns, mapM_eq_of_forall₂ (hall.imp fun s n hs => ?_)⟩
  obtain ⟨f, hf, hs⟩ := hs
  exact hs.readSite_eq hf hspans

end Reading

/-! ## Sites that are nodes -/

namespace Tree

/-- The tree at a site that is a node of the store. -/
def Site.tree? : Site → Option Any
  | .type t => some (.ty t)
  | .expr e => some (.expr e)
  | .stmt s => some (.stmt s)
  | _ => none

/-- The trees at those of the sites that are nodes. -/
def found (ss : List Site) : List Any := ss.filterMap Site.tree?

end Tree

/-- The tree is what is read at the node. An arm is not read on its own. -/
def ReadAt (st : Store) (names : Interner) : Any → NodeRef → Prop
  | .ty t, n => n.sort = .type ∧ st.readType names.lookup ⟨n.index⟩ = .ok t
  | .expr e, n => n.sort = .expr ∧ st.readExpr names.lookup ⟨n.index⟩ = .ok e
  | .stmt s, n => n.sort = .stmt ∧ st.readStmt names.lookup ⟨n.index⟩ = .ok s
  | .arm _, n => n.sort = .arm

theorem SiteApart.readAt {st : Store} {names : Interner} {s : Site} {n : Node.Site}
    (h : SiteApart st names.Reads s n) : Option.Rel (ReadAt st names) s.tree? n.ref? := by
  obtain ⟨fp, hnodup, h⟩ := h
  cases h with
  | stmt hnode h => exact .some ⟨rfl, readStmt_eq h hnodup⟩
  | expr hnode h => exact .some ⟨rfl, readExpr_eq h hnodup⟩
  | type hnode h => exact .some ⟨rfl, readType_eq h hnodup⟩
  | _ => exact .none

/-- In a unit that stands in distinct nodes a walk comes to no node twice. -/
theorem UnitAt.exists_sites {p : Program} {names : Interner} {u : Tree.CompilationUnit}
    {fp : List NodeRef} (h : UnitAt p names.Reads u fp) (hnodup : fp.Nodup) :
    ∃ ns, p.sites = .ok ns ∧ (ns.filterMap Node.Site.ref?).Nodup ∧
      List.Forall₂ (ReadAt p.store names) (Tree.found (Tree.sites u))
        (ns.filterMap Node.Site.ref?) := by
  have hcomes : Comes p.store names.Reads (Tree.sites u) p.sites fp :=
    h.visits hnodup fun _ _ _ _ _ => rfl
  obtain ⟨ns, hns, hall, hrefs⟩ := hcomes
  exact ⟨ns, hns, hrefs.nodup hnodup, List.rel_filterMap (fun _ _ hs => hs.readAt) hall⟩

/-! ## Names -/

namespace Tree

/-- The sites that have a name, and their names. -/
inductive Site.Spells : Site → String → Prop
  | cls (c : Class) : Spells (.classDecl c) c.name
  | field (f : Field) : Spells (.fieldDecl f) f.name
  | method (m : Method) : Spells (.methodDecl m) m.name
  | param (p : Param) : Spells (.param p) p.name
  | localVar (span : Span) (t : Ty) (n : String) (init : Option Expr) (isFinal : Bool) :
    Spells (.stmt (.localVar span t n init isFinal)) n
  | ident (span : Span) (n : String) : Spells (.expr (.ident span n)) n
  | member (span : Span) (e : Expr) (n : String) : Spells (.expr (.field span e n)) n
  | call (span : Span) (r : Option Expr) (n : String) (args : List Expr) :
    Spells (.expr (.call span r n args)) n
  | type (n : String) (args : List Ty) : Spells (.type (.named n args)) n

theorem Site.identifier?_eq_some_iff {s : Site} {n : String} :
    s.identifier? = some n ↔ s.Spells n := by
  constructor
  · intro h
    unfold Site.identifier? at h
    split at h <;> cases h <;> constructor
  · intro h
    cases h <;> rfl

/-- The identifiers of a unit are the names at its positions. -/
theorem mem_identifiers_iff {u : CompilationUnit} {n : String} :
    n ∈ identifiers u ↔ ∃ p s, (Site.unit u).at? p = some s ∧ s.Spells n := by
  rw [identifiers, List.mem_filterMap]
  constructor
  · rintro ⟨s, hs, hn⟩
    obtain ⟨p, hp⟩ := Site.contains_iff_exists_at?.1 (mem_sites_iff.1 hs)
    exact ⟨p, s, hp, Site.identifier?_eq_some_iff.1 hn⟩
  · rintro ⟨p, s, hp, hn⟩
    exact ⟨s, mem_sites_iff.2 (Site.contains_iff_exists_at?.2 ⟨p, hp⟩),
      Site.identifier?_eq_some_iff.2 hn⟩

end Tree

/-! ## Loaded units -/

/-- A loaded unit is walked in pre-order: what is recorded are the sites that are not below a site
of a pruned kind, at strictly increasing positions. The walk over the ids of the program does not
fail, and what it comes to is read as these sites. If nothing is pruned, these are all sites, and
the walk comes to the expressions, statements and types among them at distinct nodes. The
identifiers of the program are the names at the sites. -/
theorem trace_load_preorder (pruned : List String) (u : Tree.CompilationUnit) (names : Interner)
    (hfits : (Program.load u names).1.store.arms.size ≤ absentRaw) :
    let loaded := Program.load u names
    let readSite := loaded.1.store.readSite loaded.2.lookup
    let enter := fun s : Site => !pruned.contains s.kind
    loaded.1.read loaded.2 = .ok u ∧
      (∃ l, (Site.unit u).IsListing enter l ∧ Tree.unitVisits enter u = l.map Prod.snd ∧
        Tree.trace pruned u = l.flatMap fun x => x.2.entries enter) ∧
      (∃ ns, loaded.1.visits (fun n => (readSite n).toOption.all enter) = .ok ns ∧
        ns.mapM readSite = .ok (Tree.unitVisits enter u)) ∧
      (∃ l : List (List Nat × Site), (l.map Prod.fst).Pairwise (· < ·) ∧
        (∀ p s, (p, s) ∈ l ↔ (Site.unit u).at? p = some s) ∧ Tree.sites u = l.map Prod.snd) ∧
      (∃ ns, loaded.1.sites = .ok ns ∧ (ns.filterMap Node.Site.ref?).Nodup ∧
        List.Forall₂ (ReadAt loaded.1.store loaded.2) (Tree.found (Tree.sites u))
          (ns.filterMap Node.Site.ref?)) ∧
      (∃ ns, loaded.1.identifiers = .ok ns ∧ ns.map loaded.2.lookup = Tree.identifiers u) ∧
      ∀ n, n ∈ Tree.identifiers u ↔ ∃ p s, (Site.unit u).at? p = some s ∧ s.Spells n := by
  intro loaded readSite enter
  obtain ⟨fp, hunit, hnodup⟩ := Program.load_unitAt u names hfits
  have hreads : UnitAt loaded.1 loaded.2.Reads u fp := hunit.imp fun _ _ hn => hn.reads
  refine ⟨hreads.read_eq hnodup, ?_,
    hreads.visits_read hnodup (Program.load_blocksSpanned u names) enter, ?_,
    hreads.exists_sites hnodup, ?_, fun n => Tree.mem_identifiers_iff⟩
  · obtain ⟨l, hlisting, hwalk⟩ := Site.exists_listing enter (.unit u)
    have hwalk : Tree.unitVisits enter u = l.map Prod.snd := hwalk
    exact ⟨l, hlisting, hwalk, by rw [Tree.trace, hwalk, List.flatMap_map]⟩
  · obtain ⟨l, hlisting, hwalk⟩ := Site.exists_listing (fun _ => true) (.unit u)
    refine ⟨l, hlisting.sorted, fun p s => ?_, hwalk⟩
    rw [hlisting.mem_iff, Site.remains_iff_of_forall fun _ => rfl]
  · obtain ⟨ns, hns, hspelled⟩ := hreads.identifiers hnodup
    refine ⟨ns, hns, ?_⟩
    rw [← List.forall₂_eq_eq_eq, List.forall₂_map_left_iff]
    exact hspelled

/-- A field with type arguments and an initializer, and a method with a switch. -/
def walkedUnit : Tree.CompilationUnit where
  package := "p"
  imports := [{ path := "java.util.List" }]
  classes := [{
    name := "C"
    members := [
      .field {
        type := .named "List" [.array (.named "Entry" [])]
        name := "all"
        init := some (.create ⟨1, 2⟩ (.named "Box" [.named "Entry" []]) [.ident ⟨2, 3⟩ "a"]) },
      .method {
        name := "run"
        params := [{ type := .primitive .int, name := "k" }]
        body := some { stmts := [
          .switch ⟨3, 4⟩ (.ident ⟨4, 5⟩ "k") [
            .mk (some (.ident ⟨5, 6⟩ "one")) [.expr ⟨6, 7⟩ (.call ⟨6, 7⟩ none "go" [])],
            .mk none []],
          .returnWith ⟨7, 8⟩ none] } }] }]

-- The switch is recorded and its parts are not; the name of the call in it is an identifier still.
theorem trace_load_preorder_pruned_switch :
    let pruned := ["stmt:switch"]
    let enter := fun s : Site => !pruned.contains s.kind
    (Program.load walkedUnit {}).1.store.arms.size ≤ absentRaw ∧
      (∃ l, (Site.unit walkedUnit).IsListing enter l ∧
        ["unit", "import java.util.List", "class C", "member 0..0", "member 0..0", "field all",
          "type:named List", "type:array", "type:named Entry", "expr:new 1..2", "type:named Box",
          "type:named Entry", "expr:ident 2..3", "method run", "param k", "type:prim int",
          "block 0..0", "stmt:switch 3..4", "stmt:return 7..8"] =
            l.flatMap fun x => x.2.entries enter) ∧
      ∃ p s, (Site.unit walkedUnit).at? p = some s ∧ s.Spells "go" := by
  intro pruned enter
  have hfits : (Program.load walkedUnit {}).1.store.arms.size ≤ absentRaw := by decide +kernel
  obtain ⟨-, ⟨l, hlisting, -, htrace⟩, -, -, -, -, hnames⟩ :=
    trace_load_preorder pruned walkedUnit {} hfits
  refine ⟨hfits, ⟨l, hlisting, Eq.trans ?_ htrace⟩, (hnames "go").1 (by decide +kernel)⟩
  decide +kernel

end TupleAssign
