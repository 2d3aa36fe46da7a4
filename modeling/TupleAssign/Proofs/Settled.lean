import TupleAssign.Proofs.Interning
import TupleAssign.Proofs.Replacing
import TupleAssign.Proofs.Resolving
/-!
# Nothing is left to do after a run

After a run no unpacking in the unit can replace its statement (`run_idle`), unless one was inside
another. The statements that came in have no unpackings. A statement that stayed has the unpackings
that it had, and each of them is as unsound as before: around it there are temporaries now, whose
names it does not mention, and there may be fewer declarations (`Fewer`). So a second run has nothing
to do, and a run that has nothing to do changes nothing.
-/

namespace TupleAssign

namespace Rewrite

open TupleAssign.Tree (Ty Expr Stmt Arm)

/-! ## Fewer declarations -/

section Fewer

variable {S : List String} {scopes scopes' : Scopes Ty}

/-- Of the names in `S`, the first scopes declare nothing that the second do not. -/
def Fewer (S : List String) (scopes scopes' : Scopes Ty) : Prop :=
  List.Forall₂ (fun f f' => ∀ d ∈ f, d.name ∈ S →
    ∃ d' ∈ f', d'.name = d.name ∧ d'.offset = d.offset) scopes.frames scopes'.frames

theorem Fewer.refl (S : List String) (scopes : Scopes Ty) : Fewer S scopes scopes :=
  List.forall₂_same.2 fun _ _ d hd _ => ⟨d, hd, rfl, rfl⟩

theorem Fewer.push (h : Fewer S scopes scopes') : Fewer S scopes.push scopes'.push :=
  .cons (fun _ hd => nomatch hd) h

theorem Fewer.declare_right (h : Fewer S scopes scopes') (name : String) (type : Ty)
    (offset : Nat) : Fewer S scopes (scopes'.declare name type offset) := by
  obtain ⟨fs⟩ := scopes
  obtain ⟨fs'⟩ := scopes'
  cases h with
  | nil => exact .nil
  | cons head tail =>
    refine .cons (fun d hd hS => ?_) tail
    obtain ⟨d', hd', hsame⟩ := head d hd hS
    exact ⟨d', List.mem_cons_of_mem _ hd', hsame⟩

theorem Fewer.declare (h : Fewer S scopes scopes') (name : String) (type : Ty) (offset : Nat) :
    Fewer S (scopes.declare name type offset) (scopes'.declare name type offset) := by
  obtain ⟨fs⟩ := scopes
  obtain ⟨fs'⟩ := scopes'
  cases h with
  | nil => exact .nil
  | cons head tail =>
    refine .cons (List.forall_mem_cons.2 ⟨fun _ => ⟨_, List.mem_cons_self, rfl, rfl⟩, ?_⟩) tail
    intro d hd hS
    obtain ⟨d', hd', hsame⟩ := head d hd hS
    exact ⟨d', List.mem_cons_of_mem _ hd', hsame⟩

/-- Names that are not in `S` do not count. -/
theorem Fewer.declare_left (h : Fewer S scopes scopes') {name : String} (hname : name ∉ S)
    (type : Ty) (offset : Nat) : Fewer S (scopes.declare name type offset) scopes' := by
  obtain ⟨fs⟩ := scopes
  obtain ⟨fs'⟩ := scopes'
  cases h with
  | nil => exact .nil
  | cons head tail =>
    exact .cons (List.forall_mem_cons.2 ⟨fun hS => absurd hS hname, head⟩) tail

theorem Fewer.declaring_right (h : Fewer S scopes scopes') (t : Stmt) :
    Fewer S scopes (declaring scopes' t) := by
  cases t with
  | localVar s type n init isFinal => exact h.declare_right n type s.start
  | _ => exact h

theorem Fewer.declaring (h : Fewer S scopes scopes') (t : Stmt) :
    Fewer S (declaring scopes t) (declaring scopes' t) := by
  cases t with
  | localVar s type n init isFinal => exact h.declare n type s.start
  | _ => exact h

theorem Fewer.isDeclared (h : Fewer S scopes scopes') {x : String} (hx : x ∈ S) {offset : Nat}
    (hd : isDeclared scopes x offset = true) : isDeclared scopes' x offset = true := by
  obtain ⟨fs⟩ := scopes
  obtain ⟨fs'⟩ := scopes'
  simp only [Rewrite.isDeclared, List.any_eq_true, Bool.and_eq_true, beq_iff_eq,
    decide_eq_true_eq] at hd ⊢
  obtain ⟨f, hf, d, hd, rfl, hoffset⟩ := hd
  change List.Forall₂ _ fs fs' at h
  induction h with
  | nil => cases hf
  | cons head tail ih =>
    rcases List.mem_cons.1 hf with rfl | hf
    · obtain ⟨d', hd', hname, hsame⟩ := head d hd hx
      exact ⟨_, List.mem_cons_self, d', hd', hname, hsame ▸ hoffset⟩
    · obtain ⟨f', hf', hrest⟩ := ih hf
      exact ⟨f', List.mem_cons_of_mem _ hf', hrest⟩

/-- An expression declares nothing. -/
theorem Fewer.expr {g : Progress} (h : Fewer S scopes g.scopes) (r : Resolver) (inMethod : Bool)
    (place : Place) (e : Expr) : Fewer S scopes (expr r inMethod place e g).2.scopes :=
  (expr_scopes r inMethod place g e).symm ▸ h

/-- What is sound where less is declared is sound where more is. -/
theorem Fewer.isSound (h : Fewer S scopes scopes') {a : Unpacking} (ha : argNames a ⊆ S)
    (hs : isSound scopes a = true) : isSound scopes' a = true := by
  simp only [Rewrite.isSound, Bool.and_eq_true] at hs ⊢
  refine ⟨hs.1, ?_⟩
  have hresolved := hs.2
  simp only [unresolved?, firstUnresolved, Option.isNone_map, Option.isNone_iff_eq_none,
    List.find?_eq_none, Bool.and_eq_true, Bool.not_eq_true', not_and,
    Bool.not_eq_false] at hresolved ⊢
  intro p hp hneeds
  exact h.isDeclared (ha (targetNames_subset a (List.of_mem_zip hp).1)) (hresolved p hp hneeds)

end Fewer

/-! ## Idle occurrences -/

/-- None of these can replace its statement. -/
def Idle (os : List Occurrence) : Prop :=
  ∀ o ∈ os, o.inMethod = true → o.listed = true → isSound o.scopes o.unpacking = false

theorem Idle.nil : Idle [] := fun _ ho => nomatch ho

theorem Idle.append {os os' : List Occurrence} (h : Idle os) (h' : Idle os') : Idle (os ++ os') :=
  List.forall_mem_append.2 ⟨h, h'⟩

/-- An unpacking that is replaced is sound and stands in a list of a method. -/
theorem sound_of_replaced {o : Occurrence} (h : o.verdict = .replaced) :
    o.inMethod = true ∧ o.listed = true ∧ isSound o.scopes o.unpacking = true := by
  unfold Occurrence.verdict at h
  dsimp only at h
  split at h
  · cases h
  · next hmethod =>
    split at h
    · cases h
    · next hlen =>
      split at h
      · cases h
      · next hmisfit =>
        split at h
        · cases h
        · next hplace =>
          split at h
          · cases h
          · next hresolved =>
            simp only [Bool.not_eq_true', Bool.not_eq_false] at hmethod
            simp only [Bool.or_eq_true, Bool.not_eq_true', not_or, Bool.not_eq_false] at hplace
            refine ⟨hmethod, hplace.1, ?_⟩
            simp [isSound, not_not.1 hlen, hmisfit, hresolved]

theorem Idle.countP_replaced {os : List Occurrence} (h : Idle os) :
    os.countP (·.verdict = .replaced) = 0 := by
  refine List.countP_eq_zero.2 fun o ho hreplaced => ?_
  obtain ⟨hmethod, hlisted, hsound⟩ := sound_of_replaced (of_decide_eq_true hreplaced)
  rw [h o ho hmethod hlisted] at hsound
  exact Bool.noConfusion hsound

section Statements

variable {S : List String} (r : Resolver) (inMethod : Bool)

/-- Unpackings that were unsound stay idle where less is declared. -/
theorem idle_at {listed : Bool} {scopes scopes' : Scopes Ty} {us : List Unpacking}
    (hfewer : Fewer S scopes scopes') (hknown : ∀ a ∈ us, argNames a ⊆ S)
    (h : inMethod = true → listed = true → hasSound (us.map (·, scopes')) = false)
    (earlier : List (Unpacking × Scopes Ty)) :
    Idle (occurrencesAt inMethod listed scopes earlier us) := by
  induction us generalizing earlier with
  | nil => exact .nil
  | cons a us ih =>
    obtain ⟨ha, hus⟩ := List.forall_mem_cons.1 hknown
    rw [occurrencesAt]
    refine List.forall_mem_cons.2 ⟨fun hmethod hlisted => ?_, ih hus (fun hmethod hlisted => ?_) _⟩
    · have hunsound := h hmethod hlisted
      simp only [List.map_cons, hasSound, List.any_cons, Bool.or_eq_false_iff] at hunsound
      exact Bool.eq_false_iff.2 fun hsound =>
        Bool.noConfusion ((hfewer.isSound ha hsound).symm.trans hunsound.1)
    · have hunsound := h hmethod hlisted
      simp only [List.map_cons, hasSound, List.any_cons, Bool.or_eq_false_iff] at hunsound
      exact hunsound.2

theorem stmtsOccurrences_append (scopes : Scopes Ty) (ss ss' : List Stmt) :
    stmtsOccurrences r inMethod scopes (ss ++ ss') =
      stmtsOccurrences r inMethod scopes ss ++
        stmtsOccurrences r inMethod (ss.foldl declaring scopes) ss' := by
  induction ss generalizing scopes with
  | nil => rw [List.nil_append, stmtsOccurrences, List.foldl_nil, List.nil_append]
  | cons s ss ih =>
    rw [List.cons_append, stmtsOccurrences, stmtsOccurrences, ih, List.append_assoc,
      List.foldl_cons]

/-! ## Statements that came in -/

/-- No value of these unpackings has an unpacking inside. -/
def Unnested (us : List Unpacking) : Prop := ∀ a ∈ us, ∀ v ∈ a.values, unpackings r v = []

/-- The assignments of an expansion are to plain variables, so there is nothing to unpack. -/
theorem stmtsUnpackings_expansion (span : Span) {steps : List Step}
    (h : ∀ s ∈ steps, unpackings r s.value = []) :
    stmtsUnpackings r (expansion span steps) = [] := by
  rw [stmtsUnpackings_eq, List.flatMap_eq_nil_iff]
  intro t ht
  rcases List.mem_append.1 ht with ht | ht
  · obtain ⟨s, hs, hdeclared⟩ := List.mem_filterMap.1 ht
    obtain ⟨⟨x, type⟩, -, rfl⟩ := Option.map_eq_some_iff.1 hdeclared
    rw [stmtUnpackings, unpackings?_some, h s hs]
  · obtain ⟨⟨target, value, temp⟩, hs, rfl⟩ := List.mem_map.1 ht
    have hnone : ∀ v : Expr, unpackings r v = [] →
        unpackings r (.assign span (.ident span target) v) = [] := by
      intro v hv
      rw [unpackings]
      simp only [Resolver.unpacking?, Resolver.side?]
      rw [unpackings, hv, List.append_nil]
    rw [Step.assignment, stmtUnpackings]
    cases temp with
    | none => exact hnone value (h _ hs)
    | some temp => exact hnone _ (by rw [unpackings])

/-- What an expansion declares is not in `S`. -/
theorem fewer_expansion (span : Span) {steps : List Step} (h : ∀ x ∈ tempNames steps, x ∉ S)
    {scopes scopes' : Scopes Ty} (hfewer : Fewer S scopes scopes') :
    Fewer S ((expansion span steps).foldl declaring scopes) scopes' := by
  have hassigned : ∀ (ss : List Step) (scopes : Scopes Ty),
      (ss.map (Step.assignment span)).foldl declaring scopes = scopes := by
    intro ss scopes
    induction ss with
    | nil => rfl
    | cons s ss ih => exact ih
  rw [expansion, List.foldl_append, hassigned]
  induction steps generalizing scopes with
  | nil => exact hfewer
  | cons s steps ih =>
    obtain ⟨target, value, temp⟩ := s
    cases temp with
    | none => exact ih h hfewer
    | some temp =>
      obtain ⟨x, type⟩ := temp
      rw [tempNames_some, List.forall_mem_cons] at h
      exact ih h.2 (hfewer.declare_left h.1 type span.start)

theorem mem_labels {scopes : Scopes Ty} {as : List Arm} {m : Unpacking × Scopes Ty}
    (h : m ∈ labelUnpackings r scopes as) : m.1 ∈ armsUnpackings r as := by
  induction as generalizing scopes with
  | nil => cases h
  | cons a as ih =>
    obtain ⟨label, ss⟩ := a
    rw [armsUnpackings]
    rcases List.mem_append.1 h with h | h
    · obtain ⟨a, ha, rfl⟩ := List.mem_map.1 h
      exact List.mem_append_left _ ha
    · exact List.mem_append_right _ (List.mem_append_right _ (ih h))

/-- A statement's own unpackings are among its unpackings. -/
theorem mem_own {scopes : Scopes Ty} {t : Stmt} {m : Unpacking × Scopes Ty}
    (h : m ∈ ownUnpackings r scopes t) : m.1 ∈ stmtUnpackings r t := by
  have hmap : ∀ {us : List Unpacking} {sc : Scopes Ty}, m ∈ us.map (·, sc) → m.1 ∈ us := by
    intro us sc hm
    obtain ⟨a, ha, rfl⟩ := List.mem_map.1 hm
    exact ha
  cases t with
  | expr s e | localVar s t n init isFinal | returnWith s v =>
    rw [stmtUnpackings]
    exact hmap h
  | ifElse s c t e =>
    cases e <;>
    · rw [stmtUnpackings]
      exact List.mem_append_left _ (hmap h)
  | whileLoop s c b =>
    rw [stmtUnpackings]
    exact List.mem_append_left _ (hmap h)
  | switch s sel as =>
    rw [stmtUnpackings]
    rcases List.mem_append.1 h with h | h
    · exact List.mem_append_left _ (hmap h)
    · exact List.mem_append_right _ (mem_labels r h)
  | block s ss | breakOut s | continueOn s | empty s => cases h

/-- A statement declares what it declared before its lists were rewritten. -/
theorem declaring_stmt (place : Place) (t : Stmt) (g : Progress) (scopes : Scopes Ty) :
    declaring scopes (stmt r inMethod place t g).1.2 = declaring scopes t := by
  cases t with
  | ifElse s c t e => cases e <;> rw [stmt] <;> rfl
  | _ => rw [stmt]; rfl

/-! ## Statements that stayed -/

/-- A statement that stands in its list after its unpackings have been met stands there because none
of them is sound. -/
theorem Stands.unsound_of_stayed {inMethod : Bool} {met : List (Unpacking × Scopes Ty)}
    {place : Place} (h : Stands inMethod true met place) (hstayed : ∀ ss, place ≠ .replaced ss)
    (hmethod : inMethod = true) : hasSound met = false := by
  have hplace := h hmethod
  cases place with
  | fixed => cases hplace
  | listed => exact hplace.2
  | replaced ss => exact absurd rfl (hstayed ss)

/-- What stands in a list in place of a statement is idle, if the statement is where it stayed. -/
theorem listed_idle {t : Stmt} {g : Progress} {scopes : Scopes Ty} (hready : Ready S g)
    (hflat : Unnested r (stmtUnpackings r t)) (hfewer : Fewer S scopes g.scopes)
    (hstayed : (inMethod = true → hasSound (ownUnpackings r g.scopes t) = false) →
      Idle (stmtOccurrences r inMethod true scopes (stmt r inMethod .listed t g).1.2)) :
    let ss := (stmt r inMethod .listed t g).1.1.stmts (stmt r inMethod .listed t g).1.2
    Idle (stmtsOccurrences r inMethod scopes ss) ∧
      Fewer S (ss.foldl declaring scopes) (declaring g.scopes t) := by
  intro ss
  have hgives := stmt_gives r inMethod .listed (fun _ hss => nomatch hss) t g
  have hstands : Stands inMethod true (ownUnpackings r g.scopes t)
      (stmt r inMethod .listed t g).1.1 :=
    (stmt_deals r inMethod .listed true g.scopes (stands_listed inMethod) t g rfl).2.2
  cases hplace : (stmt r inMethod .listed t g).1.1 with
  | fixed | listed =>
    rw [hplace] at hstands
    have hunsound := hstands.unsound_of_stayed fun _ hss => nomatch hss
    simp only [ss, hplace, Place.stmts]
    rw [stmtsOccurrences, stmtsOccurrences, List.append_nil, List.foldl_cons, List.foldl_nil,
      declaring_stmt]
    exact ⟨hstayed hunsound, hfewer.declaring t⟩
  | replaced ss' =>
    obtain ⟨a, around, steps, hmem, hexpands, rfl⟩ := hgives ss' hplace
    simp only [ss, hplace, Place.stmts]
    -- The declaration of the statement is gone, if it had one, and temporaries have come in.
    constructor
    · have hvalues : ∀ s ∈ steps, unpackings r s.value = [] := fun s hs =>
        hflat a (mem_own r hmem) s.value (hexpands.steps hs).2.1
      have hnone := map_stmtsOccurrences r inMethod scopes (expansion a.span steps)
      rw [stmtsUnpackings_expansion r a.span hvalues, List.map_eq_nil_iff] at hnone
      rw [hnone]
      exact .nil
    · have hfresh : ∀ x ∈ tempNames steps, x ∉ S := fun x hx hS =>
        (hexpands.temps.2 x hx).1 (hready.reserved hS)
      exact fewer_expansion a.span hfresh (hfewer.declaring_right t)

theorem hasSound_append {met met' : List (Unpacking × Scopes Ty)} :
    hasSound (met ++ met') = false ↔ hasSound met = false ∧ hasSound met' = false := by
  rw [hasSound, List.any_append, Bool.or_eq_false_iff]
  rfl

mutual

theorem stmt_idle (place : Place) (listed : Bool) :
    ∀ (t : Stmt) (g : Progress) (scopes : Scopes Ty),
    Ready S g → t.names ⊆ S → Unnested r (stmtUnpackings r t) → Fewer S scopes g.scopes →
    (inMethod = true → listed = true → hasSound (ownUnpackings r g.scopes t) = false) →
    Idle (stmtOccurrences r inMethod listed scopes (stmt r inMethod place t g).1.2)
  | .expr s e, g, scopes, hready, ht, hflat, hfewer, hown => by
    rw [Stmt.names] at ht
    rw [stmt]
    change Idle (stmtOccurrences r inMethod listed scopes (.expr s e))
    rw [stmtOccurrences]
    exact idle_at inMethod hfewer (fun a ha => argNames_subset e ha ht) hown []
  | .localVar s t n init isFinal, g, scopes, hready, ht, hflat, hfewer, hown => by
    rw [Stmt.names, List.cons_subset, List.append_subset] at ht
    rw [stmt]
    change Idle (stmtOccurrences r inMethod listed scopes (.localVar s t n init isFinal))
    rw [stmtOccurrences]
    exact idle_at inMethod (hfewer.declare n t s.start) (fun a ha => argNames_subset? ha ht.2.2)
      hown []
  | .block s ss, g, scopes, hready, ht, hflat, hfewer, hown => by
    rw [Stmt.names] at ht
    rw [stmtUnpackings] at hflat
    rw [stmt]
    change Idle (stmtOccurrences r inMethod listed scopes (.block s _))
    rw [stmtOccurrences]
    exact (stmts_idle ss _ _ hready.push ht hflat hfewer.push).1
  | .ifElse s c t none, g, scopes, hready, ht, hflat, hfewer, hown => by
    rw [Stmt.names, List.append_subset] at ht
    rw [stmtUnpackings, Unnested, List.forall_mem_append] at hflat
    have hcond := idle_at inMethod hfewer (fun a ha => argNames_subset c ha ht.1) hown []
    have hfewer₁ := hfewer.expr r inMethod place c
    -- A branch does not stand in a list, so its own unpackings are idle whatever they are.
    have hthen := stmt_idle .fixed false t _ _ (hready.expr r inMethod place c).push ht.2 hflat.2
      hfewer₁.push (fun _ hlisted => nomatch hlisted)
    rw [stmt]
    change Idle (stmtOccurrences r inMethod listed scopes (.ifElse s c _ none))
    rw [stmtOccurrences]
    exact hcond.append hthen
  | .ifElse s c t (some e), g, scopes, hready, ht, hflat, hfewer, hown => by
    rw [Stmt.names, List.append_subset, List.append_subset] at ht
    rw [stmtUnpackings, Unnested, List.forall_mem_append, List.forall_mem_append] at hflat
    have hcond := idle_at inMethod hfewer (fun a ha => argNames_subset c ha ht.1) hown []
    have hready₁ := hready.expr r inMethod place c
    have hfewer₁ := hfewer.expr r inMethod place c
    have hthen := stmt_idle .fixed false t _ _ hready₁.push ht.2.1 hflat.2.1 hfewer₁.push
      (fun _ hlisted => nomatch hlisted)
    have hfewer₂ : Fewer S scopes
        (inScope (stmt r inMethod .fixed t) (expr r inMethod place c g).2).2.scopes :=
      (branch_scopes r inMethod _ t).symm ▸ hfewer₁
    have helse := stmt_idle .fixed false e _ _ (hready₁.branch r inMethod t).push ht.2.2 hflat.2.2
      hfewer₂.push (fun _ hlisted => nomatch hlisted)
    rw [stmt]
    change Idle (stmtOccurrences r inMethod listed scopes (.ifElse s c _ (some _)))
    rw [stmtOccurrences]
    exact hcond.append (hthen.append helse)
  | .whileLoop s c b, g, scopes, hready, ht, hflat, hfewer, hown => by
    rw [Stmt.names, List.append_subset] at ht
    rw [stmtUnpackings, Unnested, List.forall_mem_append] at hflat
    have hcond := idle_at inMethod hfewer (fun a ha => argNames_subset c ha ht.1) hown []
    have hfewer₁ := hfewer.expr r inMethod place c
    have hbody := stmt_idle .fixed false b _ _ (hready.expr r inMethod place c).push ht.2 hflat.2
      hfewer₁.push (fun _ hlisted => nomatch hlisted)
    rw [stmt]
    change Idle (stmtOccurrences r inMethod listed scopes (.whileLoop s c _))
    rw [stmtOccurrences]
    exact hcond.append hbody
  | .switch s sel as, g, scopes, hready, ht, hflat, hfewer, hown => by
    rw [Stmt.names, List.append_subset] at ht
    rw [stmtUnpackings, Unnested, List.forall_mem_append] at hflat
    simp only [ownUnpackings, hasSound_append] at hown
    have hsel := idle_at inMethod hfewer (fun a ha => argNames_subset sel ha ht.1)
      (fun hmethod hlisted => (hown hmethod hlisted).1) []
    have hscopes := expr_scopes r inMethod place g sel
    have harms := arms_idle (expr r inMethod place sel g).1 listed as _ _
      ((unpackings r sel).map (·, scopes)) (hready.expr r inMethod place sel).push ht.2 hflat.2
      (hfewer.expr r inMethod place sel).push
      (fun hmethod hlisted => hscopes.symm ▸ (hown hmethod hlisted).2)
    rw [stmt]
    change Idle (stmtOccurrences r inMethod listed scopes (.switch s sel _))
    rw [stmtOccurrences]
    exact hsel.append harms
  | .returnWith s v, g, scopes, hready, ht, hflat, hfewer, hown => by
    rw [Stmt.names] at ht
    rw [stmt]
    change Idle (stmtOccurrences r inMethod listed scopes (.returnWith s v))
    rw [stmtOccurrences]
    exact idle_at inMethod hfewer (fun a ha => argNames_subset? ha ht) hown []
  | .breakOut s, g, scopes, _, _, _, _, _ | .continueOn s, g, scopes, _, _, _, _, _
  | .empty s, g, scopes, _, _, _, _, _ => by
    rw [stmt]
    exact .nil

theorem stmts_idle : ∀ (ss : List Stmt) (g : Progress) (scopes : Scopes Ty),
    Ready S g → Stmt.namesAll ss ⊆ S → Unnested r (stmtsUnpackings r ss) →
    Fewer S scopes g.scopes →
    Idle (stmtsOccurrences r inMethod scopes (stmts r inMethod ss g).1) ∧
      Fewer S ((stmts r inMethod ss g).1.foldl declaring scopes) (ss.foldl declaring g.scopes)
  | [], g, scopes, hready, hss, hflat, hfewer => by
    rw [stmts]
    exact ⟨.nil, hfewer⟩
  | s :: ss, g, scopes, hready, hss, hflat, hfewer => by
    rw [Stmt.namesAll, List.append_subset] at hss
    rw [stmtsUnpackings, Unnested, List.forall_mem_append] at hflat
    obtain ⟨hidle, hfewer₁⟩ := listed_idle r inMethod hready hflat.1 hfewer fun hown =>
      stmt_idle .listed true s g scopes hready hss.1 hflat.1 hfewer fun hmethod _ => hown hmethod
    rw [← stmt_scopes r inMethod] at hfewer₁
    obtain ⟨hrest, hfewer₂⟩ :=
      stmts_idle ss _ _ (hready.stmt r inMethod hss.1) hss.2 hflat.2 hfewer₁
    rw [stmt_scopes, ← List.foldl_append] at hfewer₂
    rw [stmts]
    refine ⟨?_, hfewer₂⟩
    change Idle (stmtsOccurrences r inMethod scopes (_ ++ _))
    rw [stmtsOccurrences_append]
    exact hidle.append hrest

theorem arms_idle (place : Place) (listed : Bool) : ∀ (as : List Arm) (g : Progress)
    (scopes : Scopes Ty) (earlier : List (Unpacking × Scopes Ty)),
    Ready S g → Arm.namesAll as ⊆ S → Unnested r (armsUnpackings r as) → Fewer S scopes g.scopes →
    (inMethod = true → listed = true → hasSound (labelUnpackings r g.scopes as) = false) →
    Idle (armsOccurrences r inMethod listed scopes earlier (arms r inMethod place as g).1.2)
  | [], g, scopes, earlier, _, _, _, _, _ => by
    rw [arms]
    exact .nil
  | .mk label ss :: as, g, scopes, earlier, hready, has, hflat, hfewer, hown => by
    rw [Arm.namesAll, List.append_subset, List.append_subset] at has
    rw [armsUnpackings, Unnested, List.forall_mem_append, List.forall_mem_append] at hflat
    simp only [labelUnpackings, hasSound_append] at hown
    have hlabel := idle_at inMethod hfewer (fun a ha => argNames_subset? ha has.1)
      (fun hmethod hlisted => (hown hmethod hlisted).1) earlier
    have hscopes := expr?_scopes r inMethod place g label
    have hready₁ := hready.expr? r inMethod place label
    obtain ⟨hstmts, hfewer₂⟩ := stmts_idle ss (expr? r inMethod place label g).2 scopes hready₁
      has.2.1 hflat.2.1 (hscopes.symm ▸ hfewer)
    rw [← stmts_scopes r inMethod] at hfewer₂
    have hrest := arms_idle (expr? r inMethod place label g).1 listed as _ _
      (earlier ++ (unpackings? r label).map (·, scopes)) (hready₁.stmts r inMethod has.2.1) has.2.2
      hflat.2.2 hfewer₂ (fun hmethod hlisted => by
        rw [stmts_scopes, hscopes]
        exact (hown hmethod hlisted).2)
    rw [arms]
    change Idle (armsOccurrences r inMethod listed scopes earlier (.mk label _ :: _))
    rw [armsOccurrences]
    exact hlabel.append (hstmts.append hrest)

end

end Statements

/-! ## Items -/

section Items

variable {S : List String} (r : Resolver)

theorem member_idle {m : Tree.Member} {g : Progress} (hready : Ready S g)
    (hm : Tree.memberNames m ⊆ S) (hflat : Unnested r (memberUnpackings r m)) :
    Idle (memberOccurrences r g.scopes (member r m g).1) := by
  cases m with
  | field f =>
    rw [Tree.memberNames, List.cons_subset, List.append_subset] at hm
    exact idle_at false (.refl S g.scopes) (fun a ha => argNames_subset? ha hm.2.2)
      (fun hmethod => nomatch hmethod) []
  | initializer i =>
    exact (stmts_idle r false i.body.stmts _ _ hready.push hm hflat (.refl S _)).1
  | method d =>
    obtain ⟨name, result, params, b, isStatic, span⟩ := d
    rw [Tree.memberNames, List.cons_subset, List.append_subset, List.append_subset] at hm
    cases b with
    | none => exact .nil
    | some b =>
      rw [Tree.optionNames_some] at hm
      rw [memberUnpackings, Option.toList_some, List.flatMap_singleton] at hflat
      let opened : Progress := { g with scopes := g.scopes.push }
      let declared := (params.forM (fun p => declare p.name p.type p.span.start) opened).2
      have hready₁ : Ready S declared := hready.push.params hm.2.2.1
      have hscopes : declared.scopes = declaringParams g.scopes.push params :=
        (params_deal opened.scopes params opened rfl).2.1
      have hfewer : Fewer S (declaringParams g.scopes.push params) declared.scopes :=
        hscopes ▸ .refl S _
      have hbody := (stmts_idle r true b.stmts _ _ hready₁.push hm.2.2.2 hflat hfewer.push).1
      change Idle ((some _).toList.flatMap _)
      rw [Option.toList_some, List.flatMap_singleton]
      exact hbody

/-- Whatever a list of items is made into, each item comes from one that was gone through at some
point of the run, in the same scopes. -/
theorem mem_mapM {α : Type} {f : α → Pass α} {scopes : Scopes Ty}
    (hext : ∀ a g, Progress.Extends g (f a g).2)
    (hf : ∀ a g, g.scopes = scopes → (f a g).2.scopes = scopes) {as : List α} {g : Progress}
    (hg : g.scopes = scopes) {a' : α} (h : a' ∈ (as.mapM f g).1) :
    ∃ a ∈ as, ∃ g₁, g.Extends g₁ ∧ g₁.scopes = scopes ∧ a' = (f a g₁).1 := by
  induction as generalizing g with
  | nil => cases h
  | cons a as ih =>
    rw [List.mapM_cons] at h
    change a' ∈ (f a g).1 :: (as.mapM f (f a g).2).1 at h
    rcases List.mem_cons.1 h with rfl | h
    · exact ⟨a, List.mem_cons_self, g, .refl g, hg, rfl⟩
    · obtain ⟨b, hb, g₁, hext₁, hrest⟩ := ih (hf a g hg) h
      exact ⟨b, List.mem_cons_of_mem _ hb, g₁, (hext a g).trans hext₁, hrest⟩

/-- The fields of a class are declared as before. -/
theorem declaringField_mapM (ms : List Tree.Member) (g : Progress) (scopes : Scopes Ty) :
    (ms.mapM (member r) g).1.foldl declaringField scopes = ms.foldl declaringField scopes := by
  induction ms generalizing g scopes with
  | nil => rfl
  | cons m ms ih =>
    have hsame : declaringField scopes (member r m g).1 = declaringField scopes m := by
      cases m <;> rfl
    rw [List.mapM_cons, List.foldl_cons, ← hsame]
    exact ih _ _

theorem cls_idle {c : Tree.Class} {g : Progress} (hg : g.scopes = {}) (hready : Ready S g)
    (hc : Tree.classNames c ⊆ S) (hflat : Unnested r (classUnpackings r c)) :
    Idle (classOccurrences r (cls r c g).1) := by
  rw [Tree.classNames, List.cons_subset] at hc
  let opened : Progress := { g with scopes := g.scopes.push }
  let declared := (c.members.forM declareField opened).2
  have hready₁ : Ready S declared := hready.push.fields hc.2
  have hscopes : declared.scopes = c.members.foldl declaringField ({} : Scopes Ty).push :=
    (fields_deal opened.scopes c.members opened rfl).2.1.trans (by rw [← hg])
  intro o ho
  obtain ⟨m', hm', ho⟩ := List.mem_flatMap.1 ho
  change m' ∈ (c.members.mapM (member r) declared).1 at hm'
  change o ∈ memberOccurrences r
    ((c.members.mapM (member r) declared).1.foldl declaringField ({} : Scopes Ty).push) m' at ho
  rw [declaringField_mapM, ← hscopes] at ho
  obtain ⟨m, hm, g₁, hext, hscopes₁, rfl⟩ := mem_mapM (member_does additive_extends r)
    (fun m g hg => (member_deals r m g hg).2.1) rfl hm'
  rw [← hscopes₁] at ho
  refine member_idle r (hready₁.later hext (hscopes₁ ▸ hready₁.within)) ?_ ?_ o ho
  · exact fun x hx => hc.2 (List.mem_flatMap.2 ⟨m, hm, hx⟩)
  · exact fun a ha => hflat a (List.mem_flatMap.2 ⟨m, hm, ha⟩)

/-- After a run nothing in the unit can be replaced. -/
theorem run_idle (config : DesugarConfig) (u : Tree.CompilationUnit)
    (hflat : Unnested (Resolver.ofImports config.marker u.imports)
      (unitUnpackings (Resolver.ofImports config.marker u.imports) u)) :
    Idle (occurrences (Resolver.ofImports config.marker u.imports) (run config u).2) := by
  intro o ho
  obtain ⟨c', hc', ho⟩ := List.mem_flatMap.1 ho
  obtain ⟨c, hc, g, hext, hscopes, rfl⟩ := mem_mapM (g := start config u)
    (cls_does additive_extends _) (fun c g hg => (cls_deals _ c g hg).2.1) rfl hc'
  refine cls_idle _ hscopes ((start_ready config u).later hext ?_) ?_ ?_ o ho
  · rw [hscopes]
    exact (start_ready config u).within
  · exact fun x hx => List.mem_flatMap.2 ⟨c, hc, hx⟩
  · exact fun a ha => hflat a (List.mem_flatMap.2 ⟨c, hc, ha⟩)

/-- A second run replaces nothing. -/
theorem transformed_run_run (config : DesugarConfig) (u : Tree.CompilationUnit)
    (hflat : Unnested (Resolver.ofImports config.marker u.imports)
      (unitUnpackings (Resolver.ofImports config.marker u.imports) u)) :
    (run config (run config u).2).1.transformed = 0 := by
  have hidle := run_idle config u hflat
  rw [occurrences_congr (run_alike config u)] at hidle
  have hmeets := (classes_meet config (run config u).2).transformed
  rw [hidle.countP_replaced] at hmeets
  exact hmeets

end Items

end Rewrite

open Rewrite

/-- If no unpacking of a loaded unit is inside a value of another, a second run over what the first
run left has nothing to replace, introduces no temporary, removes no import, and leaves program and
names as they are. One inside a target does no harm: that target is no variable. -/
theorem desugar_load_settles (config : DesugarConfig) (u : Tree.CompilationUnit) (names : Interner)
    (hfits : (Program.load u names).1.store.arms.size ≤ absentRaw)
    (hflat : Unnested (Resolver.ofImports config.marker u.imports)
      (unitUnpackings (Resolver.ofImports config.marker u.imports) u)) :
    ∃ o p' names' o',
      desugar config (Program.load u names).1 (Program.load u names).2 = .ok (o, p', names') ∧
      desugar config p' names' = .ok (o', p', names') ∧
      o'.transformed = 0 ∧ o'.temporaries = 0 ∧ o'.removedImports = [] := by
  obtain ⟨fp, hunit, hnodup⟩ := Program.load_unitAt u names hfits
  obtain ⟨o, p', names', fp', hrun, -, -, hunit', hnodup'⟩ := desugar_eq config hunit hnodup
  obtain ⟨o', p'', names'', -, hrun', -, ho', -⟩ := desugar_eq config hunit' hnodup'
  have hzero : o'.transformed = 0 :=
    (congrArg Outcome.transformed (ho' _ names''.spelledAs_lookup)).trans
      (transformed_run_run config u hflat)
  obtain ⟨rfl, hnames, htemps, -, himports⟩ := desugar_untouched hrun' hzero
  rw [internAll_of_desugar hrun] at hnames
  cases hnames
  exact ⟨o, _, _, o', hrun, hrun', hzero, htemps, himports⟩

theorem desugar_load_settles_mixedUnit :
    ∃ o p' names' o',
      desugar {} (Program.load mixedUnit {}).1 (Program.load mixedUnit {}).2 = .ok (o, p', names') ∧
      o.transformed = 1 ∧ desugar {} p' names' = .ok (o', p', names') ∧
      o'.transformed = 0 ∧ o'.temporaries = 0 ∧ o'.removedImports = [] := by
  have hfits : (Program.load mixedUnit {}).1.store.arms.size ≤ absentRaw := by decide +kernel
  have hflat : Unnested (Resolver.ofImports {} mixedUnit.imports)
      (unitUnpackings (Resolver.ofImports {} mixedUnit.imports) mixedUnit) := by
    unfold Unnested
    decide +kernel
  obtain ⟨o, p', names', o', hrun, hsettled⟩ := desugar_load_settles {} mixedUnit {} hfits hflat
  obtain ⟨fp, hunit, hnodup⟩ := Program.load_unitAt mixedUnit {} hfits
  have houtcome : o.transformed = 1 :=
    (congrArg Outcome.transformed (outcome_of_desugar hunit hnodup hrun)).trans (by decide +kernel)
  exact ⟨o, p', names', o', hrun, houtcome, hsettled⟩

end TupleAssign
