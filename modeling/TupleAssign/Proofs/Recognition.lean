import Mathlib.Data.List.Basic
import TupleAssign.Tree.Print
import TupleAssign.Proofs.Respelling
/-!
# Marker calls by their text

A call is recognised by comparing segments and names, yet what decides is the text it is written as:
a call on a dotted receiver is a marker call of some form if and only if it is written with the
spelling of that form and the imports make the form available (`Resolver.classify_iff_spelled`).

Cutting a path at its dots and joining segments with dots are inverse to each other where the
segments have no dots in them (`Dotted.segments_join`, `Dotted.join_segments`), so a dotted text
determines its segments.
-/

namespace TupleAssign

/-! ## Dotted paths -/

namespace Dotted

/-- No dot is in the name. -/
def Plain (s : String) : Prop := '.' ∉ s.toList

instance (s : String) : Decidable (Plain s) := inferInstanceAs (Decidable ('.' ∉ s.toList))

theorem split_eq (cs : List Char) : split cs = cs.splitOn '.' := by
  fun_induction split cs with
  | case1 => rfl
  | case2 cs ih => rw [List.splitOn_cons_eq_if_modifyHead, if_pos (beq_self_eq_true _), ih]
  | case3 c cs hdot hnil ih => exact absurd (ih.symm.trans hnil) (List.splitOn_ne_nil _ _)
  | case4 c cs hdot s ss heq ih =>
    rw [List.splitOn_cons_eq_if_modifyHead, if_neg (mt beq_iff_eq.1 hdot), ← ih, heq,
      List.modifyHead_cons]

theorem not_mem_of_mem_split {cs s : List Char} (h : s ∈ split cs) : '.' ∉ s := by
  fun_induction split cs generalizing s with
  | case1 => simp_all
  | case2 cs ih =>
    rcases List.mem_cons.1 h with rfl | h
    · exact List.not_mem_nil
    · exact ih h
  | case3 c cs hdot hnil ih =>
    obtain rfl := List.mem_singleton.1 h
    simpa using fun heq => hdot heq.symm
  | case4 c cs hdot s' ss heq ih =>
    rw [heq] at ih
    rcases List.mem_cons.1 h with rfl | h
    · have hs := ih List.mem_cons_self
      simpa using ⟨fun heq => hdot heq.symm, hs⟩
    · exact ih (List.mem_cons_of_mem _ h)

theorem plain_of_mem_segments {path s : String} (h : s ∈ segments path) : Plain s := by
  obtain ⟨cs, hcs, rfl⟩ := List.mem_map.1 h
  rw [Plain, String.toList_ofList]
  exact not_mem_of_mem_split hcs

theorem segments_ne_nil (path : String) : segments path ≠ [] := by
  rw [segments, split_eq, ne_eq, List.map_eq_nil_iff]
  exact List.splitOn_ne_nil _ _

theorem toList_join (segs : List String) :
    (join segs).toList = ['.'].intercalate (segs.map String.toList) :=
  String.toList_intercalate

theorem join_segments (path : String) : join (segments path) = path := by
  refine String.toList_injective ?_
  have hchars : (segments path).map String.toList = split path.toList := by
    simp [segments, Function.comp_def]
  rw [toList_join, hchars, split_eq, List.intercalate_splitOn]

theorem segments_join {segs : List String} (h : ∀ s ∈ segs, Plain s) (hne : segs ≠ []) :
    segments (join segs) = segs := by
  have hsplit : split (join segs).toList = segs.map String.toList := by
    rw [toList_join, split_eq]
    exact List.splitOn_intercalate '.' (by simpa [Plain] using h) (by simpa using hne)
  rw [segments, hsplit, List.map_map]
  simp [Function.comp_def]

/-- A dotted text has one reading. -/
theorem join_inj {segs segs' : List String} (h : ∀ s ∈ segs, Plain s) (h' : ∀ s ∈ segs', Plain s)
    (hne : segs ≠ []) (hne' : segs' ≠ []) : join segs = join segs' ↔ segs = segs' := by
  refine ⟨fun heq => ?_, fun heq => heq ▸ rfl⟩
  rw [← segments_join h hne, heq, segments_join h' hne']

theorem join_concat {segs : List String} (hne : segs ≠ []) (s : String) :
    join (segs ++ [s]) = join segs ++ "." ++ s := by
  rw [join, String.intercalate_append_of_ne_nil hne (by simp), String.intercalate_singleton, join]

theorem segments_append {s : String} (hs : Plain s) (path : String) :
    segments (path ++ "." ++ s) = segments path ++ [s] := by
  have hplain : ∀ s' ∈ segments path ++ [s], Plain s' := by
    intro s' hs'
    rcases List.mem_append.1 hs' with hs' | hs'
    · exact plain_of_mem_segments hs'
    · exact List.mem_singleton.1 hs' ▸ hs
  have hjoin : path ++ "." ++ s = join (segments path ++ [s]) := by
    rw [join_concat (segments_ne_nil path), join_segments]
  rw [hjoin, segments_join hplain (by simp)]

theorem segments_eq_singleton_iff {path s : String} :
    segments path = [s] ↔ Plain path ∧ path = s := by
  constructor
  · intro h
    have hpath := join_segments path
    rw [h, join, String.intercalate_singleton] at hpath
    exact hpath ▸ ⟨plain_of_mem_segments (h ▸ List.mem_singleton_self s), rfl⟩
  · rintro ⟨hplain, rfl⟩
    have h : segments (join [path]) = [path] := segments_join (by simpa using hplain) (by simp)
    rwa [join, String.intercalate_singleton] at h

/-- A path has several segments if there is a dot in it. -/
theorem length_segments_eq_one_iff {path : String} : (segments path).length = 1 ↔ Plain path := by
  rw [List.length_eq_one_iff]
  constructor
  · rintro ⟨s, hs⟩
    exact (segments_eq_singleton_iff.1 hs).1
  · intro h
    exact ⟨path, segments_eq_singleton_iff.2 ⟨h, rfl⟩⟩

theorem segments_eq (path : String) :
    segments path = (segments path).dropLast ++ [simpleName path] := by
  have hne := segments_ne_nil path
  rw [simpleName, List.getLastD_eq_getLast?, List.getLast?_eq_some_getLast hne, Option.getD_some,
    List.dropLast_concat_getLast hne]

theorem plain_simpleName (path : String) : Plain (simpleName path) := by
  have hmem : simpleName path ∈ segments path := by
    rw [segments_eq]
    exact List.mem_append_right _ (List.mem_singleton_self _)
  exact plain_of_mem_segments hmem

/-- The package of a path is what stands before its last dot. -/
theorem eq_qualifier_iff {path package : String} (hdot : ¬ Plain path) :
    package = qualifier path ↔ ∃ s, Plain s ∧ path = package ++ "." ++ s := by
  constructor
  · rintro rfl
    have hne : (segments path).dropLast ≠ [] := by
      intro hnil
      refine hdot (length_segments_eq_one_iff.1 ?_)
      rw [segments_eq, hnil]
      rfl
    refine ⟨simpleName path, plain_simpleName path, ?_⟩
    rw [qualifier, ← join_concat hne, ← segments_eq, join_segments]
  · rintro ⟨s, hs, rfl⟩
    rw [qualifier, segments_append hs, List.dropLast_concat, join_segments]

end Dotted

open TupleAssign.Tree (Expr argumentList)
open Dotted

/-! ## The text of a call -/

namespace Tree.Expr

/-- The expression is a chain of field accesses from an identifier, through these names. -/
inductive Chain : Expr → List String → Prop
  | ident (span : Span) (n : String) : Chain (.ident span n) [n]
  | field {r : Expr} {names : List String} (span : Span) (n : String) (h : Chain r names) :
    Chain (.field span r n) (names ++ [n])

/-- The receiver of a call is absent, or a chain through these names. -/
inductive CalledOn : Option Expr → List String → Prop
  | absent : CalledOn none []
  | chain {r : Expr} {names : List String} (h : Chain r names) : CalledOn (some r) names

theorem dotted?_eq_some_iff {e : Expr} {names : List String} :
    e.dotted? = some names ↔ e.Chain names := by
  constructor
  · intro h
    fun_induction dotted? e generalizing names with
    | case1 span n =>
      cases h
      exact .ident span n
    | case2 span r n ih =>
      obtain ⟨names, hr, rfl⟩ := Option.map_eq_some_iff.1 h
      exact .field span n (ih hr)
    | case3 => cases h
  · intro h
    induction h with
    | ident span n => rfl
    | field span n _ ih => rw [dotted?, ih, Option.map_some]

theorem Chain.ne_nil {e : Expr} {names : List String} (h : e.Chain names) : names ≠ [] := by
  cases h <;> simp

theorem Chain.eq_ident {e : Expr} {n : String} (h : e.Chain [n]) : ∃ span, e = .ident span n := by
  generalize hnames : [n] = names at h
  cases h with
  | ident span n' =>
    cases hnames
    exact ⟨span, rfl⟩
  | field span n' hr =>
    have hlen := congrArg List.length hnames
    have hpos := List.length_pos_iff.2 hr.ne_nil
    simp only [List.length_append, List.length_singleton] at hlen
    omega

/-- A chain is written as a dotted path, also where it stands as an operand. -/
theorem Chain.render_eq {e : Expr} {names : List String} (h : e.Chain names) :
    e.asOperand e.render = join names := by
  induction h with
  | ident span n => simp [asOperand, isCompound, render, join]
  | @field r names span n hr ih =>
    simp only [asOperand, isCompound, render, Bool.false_eq_true, if_false] at ih ⊢
    rw [ih, join_concat hr.ne_nil]

theorem CalledOn.render_eq {r : Option Expr} {names : List String} (h : CalledOn r names)
    (span : Span) (method : String) (args : List Expr) :
    (call span r method args).render =
      join (names ++ [method]) ++ argumentList (renderAll args) := by
  cases h with
  | absent => simp [render, join]
  | chain hr => rw [render, hr.render_eq, join_concat hr.ne_nil]

end Tree.Expr

/-! ## Forms -/

namespace Form

/-- The names of the receiver in the spelling of a form. -/
def receiverNames (m : Marker) : Form → List String
  | .bare => []
  | .simple => [m.ownerSimpleName]
  | .qualified => m.ownerSegments

theorem spelling_eq (m : Marker) (form : Form) :
    form.spelling m = join (form.receiverNames m ++ [m.method]) := by
  cases form with
  | bare => simp [spelling, receiverNames, join]
  | simple => simp [spelling, receiverNames, join]
  | qualified =>
    rw [receiverNames, Marker.ownerSegments, join_concat (segments_ne_nil _), join_segments]
    rfl

theorem plain_of_mem_receiverNames {m : Marker} {form : Form} {s : String}
    (h : s ∈ form.receiverNames m) : Plain s := by
  cases form with
  | bare => cases h
  | simple => exact List.mem_singleton.1 h ▸ plain_simpleName m.owner
  | qualified => exact plain_of_mem_segments h

/-- A static import of the method, or of all that its class declares. -/
def ImportsMethod (m : Marker) (i : Tree.Import) : Prop :=
  i.isStatic = true ∧ (i.onDemand = false ∧ i.path = m.owner ++ "." ++ m.method ∨
    i.onDemand = true ∧ i.path = m.owner)

/-- An import of the class, or of all of its package, which is not the unnamed one. -/
def ImportsClass (m : Marker) (i : Tree.Import) : Prop :=
  i.isStatic = false ∧ (i.onDemand = false ∧ i.path = m.owner ∨
    i.onDemand = true ∧ i.path ≠ "" ∧ ∃ s, Plain s ∧ m.owner = i.path ++ "." ++ s)

/-- What a form needs beside its spelling. The bare form is one without a receiver; the simple form
has an identifier for a receiver, and there is one only where the class has a longer name too. -/
def Available (m : Marker) (imports : List Tree.Import) (receiver : Option Expr) : Form → Prop
  | .bare => receiver = none ∧ ∃ i ∈ imports, ImportsMethod m i
  | .simple => (∃ span n, receiver = some (.ident span n)) ∧ ¬ Plain m.owner ∧
      ∃ i ∈ imports, ImportsClass m i
  | .qualified => True

end Form

namespace Resolver

variable {m : Marker} {imports : List Tree.Import}

theorem method_ofImports : (ofImports m imports).method = m.method := rfl

theorem ownerSimple_ofImports : (ofImports m imports).ownerSimple = m.ownerSimpleName := rfl

theorem ownerPath_ofImports : (ofImports m imports).ownerPath = m.ownerSegments := rfl

theorem importsBare_iff {i : Tree.Import} : importsBare m i = true ↔ Form.ImportsMethod m i := by
  rw [importsBare, Bool.and_eq_true, beq_iff_eq]
  refine and_congr_right fun _ => ?_
  cases i.onDemand <;> simp [Marker.staticImportPath]

theorem importsSimple_iff (hdot : ¬ Plain m.owner) {i : Tree.Import} :
    importsSimple m i = true ↔ Form.ImportsClass m i := by
  have hpackage : i.path = m.ownerPackage ↔ _ := eq_qualifier_iff hdot
  rw [importsSimple, Bool.and_eq_true, Bool.not_eq_true']
  refine and_congr_right fun _ => ?_
  cases i.onDemand with
  | false => simp
  | true =>
    simp only [if_true, Bool.and_eq_true, bne_iff_ne, beq_iff_eq, ne_eq, ← hpackage]
    constructor
    · rintro ⟨hne, heq⟩
      exact .inr ⟨trivial, heq ▸ hne, heq⟩
    · rintro (⟨h, -⟩ | ⟨-, hne, heq⟩)
      · cases h
      · exact ⟨heq ▸ hne, heq⟩

theorem bareImported_iff :
    (ofImports m imports).bareImported = true ↔ ∃ i ∈ imports, Form.ImportsMethod m i := by
  simp only [ofImports, List.any_eq_true, importsBare_iff]

theorem simpleImported_iff (hdot : ¬ Plain m.owner) :
    (ofImports m imports).simpleImported = true ↔ ∃ i ∈ imports, Form.ImportsClass m i := by
  simp only [ofImports, List.any_eq_true, importsSimple_iff hdot]

/-- A class of the unnamed package has one name, and by it a call is qualified. -/
theorem classifyReceiver_of_plain (hplain : Plain m.owner) {e : Expr} {names : List String}
    (he : e.Chain names) :
    (ofImports m imports).classifyReceiver (some e) =
      if names = m.ownerSegments then some .qualified else none := by
  have hsegments : m.ownerSegments = [m.owner] := segments_eq_singleton_iff.2 ⟨hplain, rfl⟩
  have hsimple : m.ownerSimpleName = m.owner := by
    rw [Marker.ownerSimpleName, simpleName, ← Marker.ownerSegments, hsegments]
    rfl
  simp only [classifyReceiver, ownerPath_ofImports, ownerSimple_ofImports,
    Expr.dotted?_eq_some_iff.2 he, Option.some.injEq, hsegments, hsimple, List.length_singleton,
    Nat.lt_irrefl, false_and, if_false, if_true]

/-- The two names of a class of a package tell the simple from the qualified form. -/
theorem classifyReceiver_of_dotted (hdot : ¬ Plain m.owner) {e : Expr} {names : List String}
    (he : e.Chain names) :
    (ofImports m imports).classifyReceiver (some e) =
      if names = m.ownerSegments then some .qualified
      else if names = [m.ownerSimpleName] ∧ (ofImports m imports).simpleImported = true then
        some .simple
      else none := by
  have hone : m.ownerSegments.length ≠ 1 := mt length_segments_eq_one_iff.1 hdot
  have hpos := List.length_pos_iff.2 (segments_ne_nil m.owner)
  have hmany : 1 < m.ownerSegments.length := by
    rw [Marker.ownerSegments] at hone ⊢
    omega
  simp only [classifyReceiver, ownerPath_ofImports, ownerSimple_ofImports,
    Expr.dotted?_eq_some_iff.2 he, Option.some.injEq, hmany, true_and, hone, if_false]
  grind

theorem classifyReceiver_chain_iff {e : Expr} {names : List String} (he : e.Chain names)
    {form : Form} :
    (ofImports m imports).classifyReceiver (some e) = some form ↔
      names = form.receiverNames m ∧ form.Available m imports (some e) := by
  by_cases hplain : Plain m.owner
  · rw [classifyReceiver_of_plain hplain he]
    cases form with
    | bare => simp [Form.Available]
    | simple => simp [Form.Available, hplain]
    | qualified => simp [Form.receiverNames, Form.Available]
  · rw [classifyReceiver_of_dotted hplain he]
    cases form with
    | bare =>
      simp only [Form.Available, reduceCtorEq, false_and, and_false, iff_false]
      split
      · simp
      · split <;> simp
    | simple =>
      have himported : (ofImports m imports).simpleImported = true ↔ _ := simpleImported_iff hplain
      have hapart : m.ownerSegments ≠ [m.ownerSimpleName] := fun heq =>
        hplain (length_segments_eq_one_iff.1 (congrArg List.length heq))
      have hident : names = [m.ownerSimpleName] → ∃ span n, some e = some (.ident span n) := by
        rintro rfl
        obtain ⟨span, rfl⟩ := he.eq_ident
        exact ⟨span, _, rfl⟩
      simp only [Form.receiverNames, Form.Available, ← himported]
      grind
    | qualified =>
      simp only [Form.receiverNames, Form.Available, and_true]
      split
      · next h => simp [h]
      · next h => split <;> simp [h]

/-- The form of a call of the marker method, by the names of its receiver. -/
theorem classifyReceiver_eq_some_iff {receiver : Option Expr} {names : List String}
    (hcalled : Expr.CalledOn receiver names) {form : Form} :
    (ofImports m imports).classifyReceiver receiver = some form ↔
      names = form.receiverNames m ∧ form.Available m imports receiver := by
  cases hcalled with
  | chain he => exact classifyReceiver_chain_iff he
  | absent =>
    cases form with
    | bare => simp [classifyReceiver, Form.receiverNames, Form.Available, bareImported_iff]
    | simple => simp [classifyReceiver, Form.receiverNames]
    | qualified =>
      have hne : [] ≠ m.ownerSegments := (segments_ne_nil m.owner).symm
      simp [classifyReceiver, Form.receiverNames, hne]

/-- A call on a chain of plain names is written with the spelling of a form just if the names are
those of the form. -/
theorem render_eq_spelling_iff (hmethod : Plain m.method) {receiver : Option Expr}
    {names : List String} (hcalled : Expr.CalledOn receiver names) (hnames : ∀ n ∈ names, Plain n)
    {method : String} (hplain : Plain method) (span : Span) (args : List Expr) (form : Form) :
    (Expr.call span receiver method args).render =
        form.spelling m ++ argumentList (Expr.renderAll args) ↔
      names = form.receiverNames m ∧ method = m.method := by
  have hall : ∀ {ns : List String} {s : String}, (∀ n ∈ ns, Plain n) → Plain s →
      ∀ n ∈ ns ++ [s], Plain n := by
    intro ns s hns hs n hn
    rcases List.mem_append.1 hn with hn | hn
    · exact hns n hn
    · exact List.mem_singleton.1 hn ▸ hs
  rw [hcalled.render_eq, String.append_left_inj, Form.spelling_eq,
    join_inj (hall hnames hplain) (hall (fun _ => Form.plain_of_mem_receiverNames) hmethod)
      (by simp) (by simp)]
  constructor
  · intro h
    obtain ⟨hreceiver, hlast⟩ := List.append_inj' h rfl
    exact ⟨hreceiver, List.singleton_inj.1 hlast⟩
  · rintro ⟨rfl, rfl⟩
    rfl

theorem classify_call {span : Span} {receiver : Option Expr} {method : String} {args : List Expr}
    {form : Form} :
    (ofImports m imports).classify (.call span receiver method args) = some form ↔
      method = m.method ∧ (ofImports m imports).classifyReceiver receiver = some form := by
  rw [classify, method_ofImports]
  split <;> simp [*]

/-- A call on a chain of plain names, or without a receiver, is a marker call of a form if and only
if it is written with the spelling of the form and the form is available; no two forms are. No
other expression is a marker call. What is compared are names of a table, in which the names that
are looked for have been entered: this gives the same for every table. -/
theorem classify_iff_spelled (m : Marker) (hmethod : Plain m.method) (imports : List Tree.Import) :
    let r := ofImports m imports
    (∀ (span : Span) (receiver : Option Expr) (method : String) (args : List Expr)
        (names : List String), Expr.CalledOn receiver names → (∀ n ∈ names, Plain n) →
        Plain method →
      let call := Expr.call span receiver method args
      let applies := fun form : Form =>
        call.render = form.spelling m ++ argumentList (Expr.renderAll args) ∧
          form.Available m imports receiver
      (∀ form, r.classify call = some form ↔ applies form) ∧
      (∀ form form', applies form → applies form' → form = form') ∧
      (Plain m.owner → ∀ s n, receiver = some (.ident s n) →
        ∀ form, r.classify call = some form → form = .qualified)) ∧
    -- Not a call, a call of another method, a call on a receiver of another kind.
    (∀ e, (∀ span receiver method args, e ≠ .call span receiver method args) →
      r.classify e = none) ∧
    (∀ span receiver method args, method ≠ m.method →
      r.classify (.call span receiver method args) = none) ∧
    (∀ span e method args, (∀ names, ¬ e.Chain names) →
      r.classify (.call span (some e) method args) = none) ∧
    -- The expression holds names, and `f` spells them, without confusing any two, as the table does.
    (∀ (names : Interner) (f : Name → String), Function.Injective f →
      (r.enter names).2.SpelledAs f →
      ∀ e : Expr Name, (r.enter names).1.classify e = r.classify (e.map f)) := by
  intro r
  refine ⟨?_, ?_, ?_, ?_, ?_⟩
  · intro span receiver method args names hcalled hnames hplain call applies
    have happlies : ∀ form, r.classify call = some form ↔ applies form := by
      intro form
      rw [classify_call, classifyReceiver_eq_some_iff hcalled]
      simp only [applies, call, render_eq_spelling_iff hmethod hcalled hnames hplain]
      tauto
    refine ⟨happlies, ?_, ?_⟩
    · intro form form' h h'
      exact Option.some.inj (((happlies form).2 h).symm.trans ((happlies form').2 h'))
    · rintro howner s n rfl form h
      obtain ⟨-, havailable⟩ := (happlies form).1 h
      cases form with
      | bare => cases havailable.1
      | simple => exact absurd howner havailable.2.1
      | qualified => rfl
  · intro e he
    cases e with
    | call span receiver method args => exact absurd rfl (he span receiver method args)
    | _ => rfl
  · intro span receiver method args hne
    exact if_neg hne
  · intro span e method args he
    have hnone : e.dotted? = none := by
      rw [Option.eq_none_iff_forall_ne_some]
      exact fun names h => he names (Expr.dotted?_eq_some_iff.1 h)
    simp [classify, classifyReceiver, hnone]
  · intro names f hf hspelled e
    rw [← classify_map hf, map_enter r hspelled]

/-- With `import lombok.*;` the call `Tuple.tuple(x)` is a marker call of the simple form. -/
theorem classify_iff_spelled_onDemand :
    let m : Marker := {}
    let imports : List Tree.Import := [{ path := "lombok", onDemand := true }]
    let tuple := Expr.ident {} "Tuple"
    let call := Expr.call {} (some tuple) "tuple" [.ident {} "x"]
    Plain m.method ∧ Expr.CalledOn (some tuple) ["Tuple"] ∧
      (ofImports m imports).classify call = some .simple ∧
      call.render = "Tuple.tuple(x)" ∧
      Form.simple.Available m imports (some tuple) := by
  intro m imports tuple call
  have hmethod : Plain m.method := by decide
  have hcalled : Expr.CalledOn (some tuple) ["Tuple"] := .chain (.ident {} "Tuple")
  have hclassify : (ofImports m imports).classify call = some .simple := by decide
  obtain ⟨happlies, -, -⟩ := (classify_iff_spelled m hmethod imports).1 {} (some tuple) "tuple"
    [.ident {} "x"] ["Tuple"] hcalled (by decide) (by decide)
  obtain ⟨htext, havailable⟩ := (happlies .simple).1 hclassify
  exact ⟨hmethod, hcalled, hclassify, htext.trans (by decide), havailable⟩

end Resolver

end TupleAssign
