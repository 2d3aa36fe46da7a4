import Mathlib.Order.Filter.AtTopBot.Basic
import TupleAssign.Proofs.Spelled
import TupleAssign.Proofs.Tokens
import TupleAssign.Proofs.TypeCopies
/-!
# Types by their text

The text of a type can be read back. `Ty.tokens` lists the tokens it is written with, `readTy` reads
a type off the beginning of a token list, and reading undoes writing (`readTy_tokens`). So two types
are written alike only if they are equal.

A reader goes on behind whatever another one leaves, so it is bounded by a depth. What it reads is
what it reads from some depth on.

What is a name and what ends one depends on the lexicon, and all that the proofs need of a name is
that it can be told from what follows it (`Lexicon.Legible`).
-/

namespace TupleAssign

open Filter (atTop)
open TupleAssign.Tree (Ty)

/-! ## Reading to a depth -/

/-- What a reader does one level up follows from what the readers below it do. -/
theorem eventually_of_succ {p : Nat → Prop} (h : ∀ᶠ n in atTop, p (n + 1)) :
    ∀ᶠ n in atTop, p n := by
  rwa [← Filter.map_add_atTop_eq_nat 1, Filter.eventually_map]

/-- Two results of one reader agree. -/
theorem eq_of_eventually {α : Type} {r : Nat → Option α} {a b : α}
    (ha : ∀ᶠ n in atTop, r n = some a) (hb : ∀ᶠ n in atTop, r n = some b) : a = b := by
  obtain ⟨n, ha, hb⟩ := (ha.and hb).exists
  exact Option.some.inj (ha.symm.trans hb)

/-! ## Reading names -/

/-- A name goes on as long as a dot and a word follow. -/
def readSegments (path : String) : List Token → String × List Token
  | .mark '.' :: .word w :: ts => readSegments (path ++ "." ++ w) ts
  | ts => (path, ts)

def readPath : List Token → Option (String × List Token)
  | .word w :: ts => some (readSegments w ts)
  | _ => none

theorem readSegments_of_ne {path : String} {ts : List Token} (h : ts.head? ≠ some (.mark '.')) :
    readSegments path ts = (path, ts) := by
  unfold readSegments
  split
  · simp at h
  · rfl

/-- The name is cut off from what follows it and read back from its tokens, and it is not the
keyword of a primitive type. -/
structure Lexicon.Legible (lx : Lexicon) (name : String) : Prop where
  scan_append : ∀ {rest}, lx.Breaks rest →
    lx.scan (name.toList ++ rest) = lx.scan name.toList ++ lx.scan rest
  readPath_scan : ∀ {ts : List Token}, ts.head? ≠ some (.mark '.') →
    readPath (lx.scan name.toList ++ ts) = some (name, ts)
  keyword_ne : ∀ p : Primitive, p.keyword ≠ name

/-- Keywords are words, and what types are punctuated with is neither a word nor a quote. -/
structure Lexicon.CutsTypes (lx : Lexicon) : Prop where
  keyword : ∀ p : Primitive, p.keyword.toList.all lx.isWord = true
  mark : ∀ c ∈ ['<', '>', ',', '[', ']'], lx.isWord c = false ∧ lx.isQuote c = false
  blank : lx.isWord ' ' = false

theorem Primitive.ofKeyword?_keyword (p : Primitive) : ofKeyword? p.keyword = some p := by
  cases p <;> decide

theorem Primitive.ofKeyword?_eq_none {s : String} (h : ∀ p : Primitive, p.keyword ≠ s) :
    ofKeyword? s = none := by
  simpa [ofKeyword?, List.find?_eq_none] using fun p _ => h p

theorem Primitive.keyword_ne_empty (p : Primitive) : p.keyword ≠ "" := by
  cases p <;> decide

/-! ## The tokens of a type -/

/-- Entries behind the first one of a list that is set off by commas. -/
def furtherText (l : List String) : List Char := l.flatMap fun s => ',' :: ' ' :: s.toList

theorem toList_commas (s : String) (l : List String) :
    (", ".intercalate (s :: l)).toList = s.toList ++ furtherText l := by
  induction l generalizing s with
  | nil => simp [furtherText]
  | cons t l ih =>
    rw [String.intercalate_cons_cons, String.toList_append, ih]
    simp [furtherText]

namespace Tree

section Tokens

variable (lx : Lexicon)

mutual

def Ty.tokens : Ty → List Token
  | .primitive p => [.word p.keyword]
  | .named name [] => lx.scan name.toList
  | .named name (t :: ts) =>
    lx.scan name.toList ++ .mark '<' :: (Ty.tokens t ++ Ty.furtherTokens ts)
  | .array t => Ty.tokens t ++ [.mark '[', .mark ']']

/-- The tokens behind a type argument, up to the end of the list. -/
def Ty.furtherTokens : List Ty → List Token
  | [] => [.mark '>']
  | t :: ts => .mark ',' :: (Ty.tokens t ++ Ty.furtherTokens ts)

end

end Tokens

section Scanning

variable {lx : Lexicon} (hlx : lx.CutsTypes)

include hlx

theorem scan_typeMark {c : Char} (hc : c ∈ ['<', '>', ',', '[', ']']) (cs : List Char) :
    lx.scan (c :: cs) = .mark c :: lx.scan cs := by
  obtain ⟨hword, hquote⟩ := hlx.mark c hc
  have hwhite : c.isWhitespace = false := by
    revert hc
    simp only [List.mem_cons, List.not_mem_nil, or_false]
    rintro (rfl | rfl | rfl | rfl | rfl) <;> rfl
  exact Lexicon.scan_mark hword hwhite hquote cs

theorem breaks_typeMark {c : Char} (hc : c ∈ ['<', '>', ',', '[', ']']) (cs : List Char) :
    lx.Breaks (c :: cs) :=
  Lexicon.breaks_cons.2 (hlx.mark c hc).1

mutual

/-- The text of a type is cut into its tokens. -/
theorem scan_ty : ∀ (t : Ty) {rest : List Char}, (∀ n ∈ t.names, lx.Legible n) → lx.Breaks rest →
    lx.scan (t.render.toList ++ rest) = t.tokens lx ++ lx.scan rest
  | .primitive p, rest, _, hrest => by
    rw [Ty.render, Ty.tokens]
    exact Lexicon.scan_word p.keyword_ne_empty (hlx.keyword p) hrest
  | .named name [], rest, hnames, hrest => by
    rw [Ty.render, Ty.tokens]
    exact (hnames name List.mem_cons_self).scan_append hrest
  | .named name (t :: ts), rest, hnames, hrest => by
    rw [Ty.names, List.forall_mem_cons, Ty.namesAll, List.forall_mem_append] at hnames
    obtain ⟨hname, ht, hts⟩ := hnames
    have htext : (Ty.named name (t :: ts)).render.toList ++ rest =
        name.toList ++ '<' ::
          (t.render.toList ++ (furtherText (Ty.renderAll ts) ++ '>' :: rest)) := by
      simp [Ty.render, Ty.renderAll, toList_commas, -String.toList_intercalate]
    rw [htext, hname.scan_append (breaks_typeMark hlx (by simp) _), scan_typeMark hlx (by simp),
      scan_ty t ht (breaks_further ts rest), scan_furtherTys ts hts, Ty.tokens]
    simp
  | .array t, rest, hnames, hrest => by
    have htext : (Ty.array t).render.toList ++ rest = t.render.toList ++ '[' :: ']' :: rest := by
      simp [Ty.render]
    rw [htext, scan_ty t hnames (breaks_typeMark hlx (by simp) _), scan_typeMark hlx (by simp),
      scan_typeMark hlx (by simp), Ty.tokens]
    simp

theorem breaks_further : ∀ (ts : List Ty) (rest : List Char),
    lx.Breaks (furtherText (Ty.renderAll ts) ++ '>' :: rest)
  | [], rest => breaks_typeMark hlx (by simp) rest
  | t :: ts, rest => breaks_typeMark hlx (by simp) _

theorem scan_furtherTys : ∀ (ts : List Ty) {rest : List Char},
    (∀ n ∈ Ty.namesAll ts, lx.Legible n) →
    lx.scan (furtherText (Ty.renderAll ts) ++ '>' :: rest) = Ty.furtherTokens lx ts ++ lx.scan rest
  | [], rest, _ => scan_typeMark hlx (by simp) rest
  | t :: ts, rest, hnames => by
    rw [Ty.namesAll, List.forall_mem_append] at hnames
    obtain ⟨ht, hts⟩ := hnames
    have htext : furtherText (Ty.renderAll (t :: ts)) ++ '>' :: rest =
        ',' :: ' ' :: (t.render.toList ++ (furtherText (Ty.renderAll ts) ++ '>' :: rest)) := by
      simp [Ty.renderAll, furtherText]
    rw [htext, scan_typeMark hlx (by simp), Lexicon.scan_white hlx.blank rfl,
      scan_ty t ht (breaks_further ts rest), scan_furtherTys ts hts, Ty.furtherTokens]
    simp

end

end Scanning

/-! ## Reading types -/

/-- An array type has its marks behind the type of its elements. -/
def readDims (t : Ty) : List Token → Ty × List Token
  | .mark '[' :: .mark ']' :: ts => readDims (.array t) ts
  | ts => (t, ts)

mutual

/-- Reads a type off the beginning of a token list, to a given depth. -/
def readTy : Nat → List Token → Option (Ty × List Token)
  | 0, _ => none
  | n + 1, ts => do
    let (name, ts) ← readPath ts
    match Primitive.ofKeyword? name with
    | some p => some (readDims (.primitive p) ts)
    | none =>
      match ts with
      | .mark '<' :: ts => do
        let (args, ts) ← readTyArgs n ts
        some (readDims (.named name args) ts)
      | ts => some (readDims (.named name []) ts)

/-- Reads type arguments up to the mark that closes their list. -/
def readTyArgs : Nat → List Token → Option (List Ty × List Token)
  | 0, _ => none
  | n + 1, ts => do
    let (t, ts) ← readTy n ts
    match ts with
    | .mark ',' :: ts => do
      let (args, ts) ← readTyArgs n ts
      some (t :: args, ts)
    | .mark '>' :: ts => some ([t], ts)
    | _ => none

end

theorem readDims_of_ne {t : Ty} {ts : List Token} (h : ts.head? ≠ some (.mark '[')) :
    readDims t ts = (t, ts) := by
  unfold readDims
  split
  · simp at h
  · rfl

/-- Neither a name nor its arguments go on. -/
def EndsName (ts : List Token) : Prop :=
  ts.head? ≠ some (.mark '.') ∧ ts.head? ≠ some (.mark '<')

/-- Behind the tokens of the type only the marks of an array are still read. -/
def ReadsTy (lx : Lexicon) (t : Ty) : Prop :=
  ∀ ts : List Token, EndsName ts →
    ∀ᶠ n in atTop, readTy n (t.tokens lx ++ ts) = some (readDims t ts)

section Reading

variable {lx : Lexicon}

mutual

theorem readsTy : ∀ t : Ty, (∀ n ∈ t.names, lx.Legible n) → ReadsTy lx t
  | .primitive p, _, ts, hts => by
    refine eventually_of_succ (.of_forall fun n => ?_)
    simp [readTy, Ty.tokens, readPath, readSegments_of_ne hts.1, Primitive.ofKeyword?_keyword]
  | .named name [], hnames, ts, hts => by
    have hname := hnames name List.mem_cons_self
    refine eventually_of_succ (.of_forall fun n => ?_)
    rw [readTy, Ty.tokens, hname.readPath_scan hts.1]
    simp only [Option.bind_eq_bind, Option.bind_some,
      Primitive.ofKeyword?_eq_none hname.keyword_ne]
    split
    · simp [EndsName] at hts
    · rfl
  | .named name (t :: args), hnames, ts, hts => by
    rw [Ty.names, List.forall_mem_cons, Ty.namesAll, List.forall_mem_append] at hnames
    obtain ⟨hname, ht, hargs⟩ := hnames
    refine eventually_of_succ ?_
    filter_upwards [readTyArgs_tokens args ts hargs (readsTy t ht)] with n hread
    rw [readTy, Ty.tokens, List.append_assoc, hname.readPath_scan (by simp)]
    simp [Primitive.ofKeyword?_eq_none hname.keyword_ne, hread]
  | .array t, hnames, ts, hts => by
    filter_upwards [readsTy t hnames (.mark '[' :: .mark ']' :: ts) (by simp [EndsName])]
      with n hread
    rw [Ty.tokens, List.append_assoc]
    exact hread

theorem readTyArgs_tokens : ∀ (args : List Ty) {t : Ty} (ts : List Token),
    (∀ n ∈ Ty.namesAll args, lx.Legible n) → ReadsTy lx t →
    ∀ᶠ n in atTop,
      readTyArgs n (t.tokens lx ++ (Ty.furtherTokens lx args ++ ts)) = some (t :: args, ts)
  | [], t, ts, _, ht => by
    refine eventually_of_succ ?_
    filter_upwards [ht (Ty.furtherTokens lx [] ++ ts) (by simp [EndsName, Ty.furtherTokens])]
      with n hread
    rw [readTyArgs, hread, readDims_of_ne (by simp [Ty.furtherTokens])]
    simp [Ty.furtherTokens]
  | t' :: args, t, ts, hargs, ht => by
    rw [Ty.namesAll, List.forall_mem_append] at hargs
    refine eventually_of_succ ?_
    filter_upwards [
      ht (Ty.furtherTokens lx (t' :: args) ++ ts) (by simp [EndsName, Ty.furtherTokens]),
      readTyArgs_tokens args ts hargs.2 (readsTy t' hargs.1)] with n hread hfurther
    rw [readTyArgs, hread, readDims_of_ne (by simp [Ty.furtherTokens])]
    simp [Ty.furtherTokens, hfurther]

end

/-- Reading undoes writing. -/
theorem readTy_tokens {t : Ty} (ht : ∀ n ∈ t.names, lx.Legible n) {ts : List Token}
    (hts : EndsName ts) (hdims : ts.head? ≠ some (.mark '[')) :
    ∀ᶠ n in atTop, readTy n (t.tokens lx ++ ts) = some (t, ts) := by
  have hread := readsTy t ht ts hts
  rwa [readDims_of_ne hdims] at hread

end Reading

/-! ## Plain names -/

/-- The name is not empty and no keyword of a primitive type, and nothing is in it that types are
punctuated with. -/
def Ty.IsPlainName (name : String) : Prop :=
  name ≠ "" ∧ (∀ p : Primitive, p.keyword ≠ name) ∧
    ∀ c ∈ name.toList, c ∉ ['<', '>', ',', '[', ']', ' ']

/-- The lexicon in which plain names are words. -/
def typeLexicon : Lexicon where
  isWord c := !(['<', '>', ',', '[', ']', ' '].contains c)
  isQuote _ := false

theorem typeLexicon_cutsTypes : typeLexicon.CutsTypes where
  keyword p := by cases p <;> decide
  mark := by simp [typeLexicon]
  blank := by decide

theorem Ty.IsPlainName.legible {name : String} (h : Ty.IsPlainName name) :
    typeLexicon.Legible name := by
  obtain ⟨hne, hkeyword, hchars⟩ := h
  have hword : name.toList.all typeLexicon.isWord = true := by
    refine List.all_eq_true.2 fun c hc => ?_
    simpa [typeLexicon] using hchars c hc
  have hscan : ∀ {rest}, typeLexicon.Breaks rest →
      typeLexicon.scan (name.toList ++ rest) = .word name :: typeLexicon.scan rest :=
    Lexicon.scan_word hne hword
  have hname : typeLexicon.scan name.toList = [.word name] := by
    simpa using hscan Lexicon.breaks_nil
  refine ⟨fun hrest => ?_, fun hts => ?_, hkeyword⟩
  · rw [hscan hrest, hname, List.singleton_append]
  · rw [hname, List.singleton_append, readPath, readSegments_of_ne hts]

theorem Ty.render_inj {t t' : Ty} (ht : ∀ n ∈ t.names, IsPlainName n)
    (ht' : ∀ n ∈ t'.names, IsPlainName n) : t.render = t'.render ↔ t = t' := by
  refine ⟨fun h => ?_, fun h => h ▸ rfl⟩
  have hread : ∀ {t : Ty}, (∀ n ∈ t.names, IsPlainName n) →
      ∀ᶠ n in atTop, readTy n (typeLexicon.scan t.render.toList) = some (t, []) := by
    intro t ht
    have hlegible : ∀ n ∈ t.names, typeLexicon.Legible n := fun n hn => (ht n hn).legible
    have hscan := scan_ty typeLexicon_cutsTypes t hlegible Lexicon.breaks_nil
    rw [List.append_nil, Lexicon.scan_nil] at hscan
    rw [hscan]
    exact readTy_tokens hlegible (by simp [EndsName]) (by simp)
  have heq := eq_of_eventually (hread ht) (h ▸ hread ht')
  exact congrArg Prod.fst heq

end Tree

/-! ## Texts and comparisons -/

/-- Only one name has a given string, if it is not empty. -/
theorem Interner.lookup_inj {names : Interner} {n m : Name} (heq : names.lookup n = names.lookup m)
    (hne : names.lookup n ≠ "") : n = m := by
  have hknows : ∀ n : Name, names.lookup n ≠ "" → names.Knows n (names.lookup n) := by
    intro n hn
    refine Interner.knows_iff.2 ⟨?_, rfl⟩
    by_contra hlt
    rw [Interner.lookup, Array.getElem?_eq_none (Nat.le_of_not_lt hlt)] at hn
    exact hn rfl
  exact (hknows n hne).inj (heq ▸ hknows m (heq ▸ hne))

/-- The text of a type says which type it is, if its names are plain. So two stored types compare
equal exactly if they are written alike. -/
theorem Tree.Ty.render_unambiguous {t t' : Ty} (ht : ∀ n ∈ t.names, Ty.IsPlainName n)
    (ht' : ∀ n ∈ t'.names, Ty.IsPlainName n) :
    (t.render = t'.render ↔ t = t') ∧
    ∀ (st : Store) (names : Interner) (a b : TypeId),
      st.readType names.lookup a = .ok t → st.readType names.lookup b = .ok t' →
      ∃ same, st.typesEqual a b = .ok same ∧ (same = true ↔ t.render = t'.render) := by
  refine ⟨Ty.render_inj ht ht', fun st names a b ha hb => ?_⟩
  obtain ⟨same, hsame⟩ := Store.exists_typesEqual ha hb
  refine ⟨same, hsame, ?_⟩
  rw [Ty.render_inj ht ht']
  constructor
  · rintro rfl
    exact Store.eq_of_typesEqual hsame ha hb
  · rintro rfl
    have hequal : st.typesEqual a b = .ok true := by
      refine Store.typesEqualTo_of_readTypeTo ?_ (Store.readTypeTo_pairs ha)
        (Store.readTypeTo_pairs hb)
      intro _ _ n m _ _ _ _ hnm hmem
      exact Interner.lookup_inj hnm (ht _ hmem).1
    exact Except.ok.inj (hsame.symm.trans hequal)

/-- `Pair<int[], int[]>`, stored once with one node for both arguments and once with two. -/
theorem Tree.Ty.render_unambiguous_shared :
    let t := Ty.named "Pair" [.array (.primitive .int), .array (.primitive .int)]
    let names := ({} : Interner).internAll ["Pair"]
    t.render = "Pair<int[], int[]>" ∧ (∀ n ∈ t.names, Ty.IsPlainName n) ∧
      Store.sharedArgument.readType names.lookup ⟨2⟩ = .ok t ∧
      Store.sharedArgument.readType names.lookup ⟨4⟩ = .ok t ∧
      Store.sharedArgument.typesEqual ⟨2⟩ ⟨4⟩ = .ok true := by
  intro t names
  have hnames : ∀ n ∈ t.names, Ty.IsPlainName n := by
    intro n hn
    obtain rfl : n = "Pair" := by simpa [t, Ty.names, Ty.namesAll] using hn
    refine ⟨by decide, fun p => ?_, by simp⟩
    cases p <;> decide
  have h2 : Store.sharedArgument.readType names.lookup ⟨2⟩ = .ok t := rfl
  have h4 : Store.sharedArgument.readType names.lookup ⟨4⟩ = .ok t := rfl
  obtain ⟨same, hsame, hiff⟩ :=
    (Ty.render_unambiguous hnames hnames).2 Store.sharedArgument names ⟨2⟩ ⟨4⟩ h2 h4
  rw [hiff.2 rfl] at hsame
  exact ⟨by decide, hnames, h2, h4, hsame⟩

end TupleAssign
