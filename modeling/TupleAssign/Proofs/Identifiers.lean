import TupleAssign.Proofs.Recognition
import TupleAssign.Proofs.TypeTexts
/-!
# Names in source text

In source text a word is a name, a number or one of the words that belong to the language, and types
have dotted names. `Lexicon.CutsSource` says how such text is cut, whatever the lexicon makes of
quotes. A dotted name is then told from what follows it (`Lexicon.CutsSource.legible`).
-/

namespace TupleAssign

/-! ## Names -/

/-- Letters, digits, the underscore, the dollar sign, and all that lies beyond ASCII. -/
def isNamePart (c : Char) : Bool := c.isAlphanum || c == '_' || c == '$' || 128 ≤ c.toNat

/-- The words of printed statements and expressions that are not names. -/
def reservedWords : List String :=
  Primitive.all.map Primitive.keyword ++
    ["true", "false", "null", "this", "new", "final", "if", "else", "while", "switch", "case",
      "default", "return", "break", "continue"]

def isIdentifier (s : String) : Bool :=
  s.toList.head?.any (!·.isDigit) && s.toList.all isNamePart && !reservedWords.contains s

/-- Identifiers with dots between them. -/
def isPathName (s : String) : Bool := (Dotted.segments s).all isIdentifier

/-- What words and quotes are in source text. -/
structure Lexicon.CutsSource (lx : Lexicon) : Prop where
  isWord : lx.isWord = isNamePart
  isQuote : ∀ c, lx.isQuote c = true → c = '"'

def sourceMarks : List Char :=
  ['(', ')', '[', ']', '\x7b', '\x7d', '.', ',', ';', ':', '?', '=', '+', '-', '*', '/', '%', '<',
    '>', '!', '&', '|']

namespace Lexicon

variable {lx : Lexicon} (hlx : lx.CutsSource)

theorem all_isNamePart_of_isIdentifier {s : String} (hs : isIdentifier s = true) :
    s.toList.all isNamePart = true := by
  simp only [isIdentifier, Bool.and_eq_true] at hs
  exact hs.1.2

theorem ne_empty_of_isIdentifier {s : String} (hs : isIdentifier s = true) : s ≠ "" := by
  rintro rfl
  revert hs
  decide

theorem all_isNamePart_toString (n : Nat) : (toString n).toList.all isNamePart = true := by
  refine List.all_eq_true.2 fun c hc => ?_
  rw [Nat.toString_eq_ofList_toDigits, String.toList_ofList] at hc
  have hdigit := Nat.isDigit_of_mem_toDigits (by decide) (by decide) hc
  simp [isNamePart, Char.isAlphanum, hdigit]

theorem toString_ne_empty (n : Nat) : toString n ≠ "" := by
  rw [Nat.toString_eq_ofList_toDigits]
  simp

theorem sourceMark_apart {c : Char} (hc : c ∈ sourceMarks) :
    isNamePart c = false ∧ c.isWhitespace = false ∧ c ≠ '"' := by
  have hall : (sourceMarks.all fun c => !isNamePart c && !c.isWhitespace && c != '"') = true := by
    decide
  simpa [and_assoc] using List.all_eq_true.1 hall c hc

include hlx

theorem CutsSource.breaks {c : Char} (hc : c ∈ sourceMarks) (cs : List Char) :
    lx.Breaks (c :: cs) := by
  rw [breaks_cons, hlx.isWord]
  exact (sourceMark_apart hc).1

theorem CutsSource.breaks_blank (cs : List Char) : lx.Breaks (' ' :: cs) := by
  rw [breaks_cons, hlx.isWord]
  decide

theorem CutsSource.scan_blank (cs : List Char) : lx.scan (' ' :: cs) = lx.scan cs :=
  Lexicon.scan_white (breaks_cons.1 (hlx.breaks_blank cs)) rfl cs

theorem CutsSource.scan_mark {c : Char} (hc : c ∈ sourceMarks) (cs : List Char) :
    lx.scan (c :: cs) = .mark c :: lx.scan cs := by
  obtain ⟨-, hwhite, hquote⟩ := sourceMark_apart hc
  refine Lexicon.scan_mark (breaks_cons.1 (hlx.breaks hc cs)) hwhite ?_ cs
  exact Bool.eq_false_iff.2 fun h => hquote (hlx.isQuote c h)

theorem CutsSource.cutsTypes : lx.CutsTypes where
  keyword p := by
    rw [hlx.isWord]
    cases p <;> decide
  mark c hc := by
    have hmem : c ∈ sourceMarks := by
      simp only [List.mem_cons, List.not_mem_nil, or_false] at hc
      rcases hc with rfl | rfl | rfl | rfl | rfl <;> decide
    refine ⟨breaks_cons.1 (hlx.breaks hmem []), Bool.eq_false_iff.2 fun h => ?_⟩
    exact (sourceMark_apart hmem).2.2 (hlx.isQuote c h)
  blank := breaks_cons.1 (hlx.breaks_blank [])

theorem CutsSource.scan_name {s : String} (hs : isIdentifier s = true) {rest : List Char}
    (hrest : lx.Breaks rest) : lx.scan (s.toList ++ rest) = .word s :: lx.scan rest := by
  refine scan_word (ne_empty_of_isIdentifier hs) ?_ hrest
  rw [hlx.isWord]
  exact all_isNamePart_of_isIdentifier hs

theorem CutsSource.scan_number (n : Nat) {rest : List Char} (hrest : lx.Breaks rest) :
    lx.scan ((toString n).toList ++ rest) = .word (toString n) :: lx.scan rest := by
  refine scan_word (toString_ne_empty n) ?_ hrest
  rw [hlx.isWord]
  exact all_isNamePart_toString n

end Lexicon

/-! ### Dotted names -/

/-- The tokens behind the first segment of a dotted name. -/
def segmentTokens (segs : List String) : List Token := segs.flatMap fun s => [.mark '.', .word s]

theorem readSegments_tokens (path : String) (segs : List String) {ts : List Token}
    (hts : ts.head? ≠ some (.mark '.')) :
    readSegments path (segmentTokens segs ++ ts) = (Dotted.join (path :: segs), ts) := by
  induction segs generalizing path with
  | nil => simp [segmentTokens, Dotted.join, readSegments_of_ne hts]
  | cons s segs ih =>
    have hjoin : Dotted.join ((path ++ "." ++ s) :: segs) = Dotted.join (path :: s :: segs) := by
      cases segs <;> simp [Dotted.join, String.intercalate_cons_cons, String.append_assoc]
    rw [← hjoin, ← ih]
    simp [segmentTokens, readSegments]

theorem Lexicon.CutsSource.scan_join {lx : Lexicon} (hlx : lx.CutsSource) {s : String}
    {segs : List String} (hs : isIdentifier s = true) (hsegs : ∀ t ∈ segs, isIdentifier t = true)
    {rest : List Char} (hrest : lx.Breaks rest) :
    lx.scan ((Dotted.join (s :: segs)).toList ++ rest) =
      .word s :: (segmentTokens segs ++ lx.scan rest) := by
  induction segs generalizing s with
  | nil => simpa [Dotted.join, segmentTokens] using hlx.scan_name hs hrest
  | cons t segs ih =>
    obtain ⟨ht, hsegs⟩ := List.forall_mem_cons.1 hsegs
    have htext : (Dotted.join (s :: t :: segs)).toList ++ rest =
        s.toList ++ '.' :: ((Dotted.join (t :: segs)).toList ++ rest) := by
      simp [Dotted.join, String.intercalate_cons_cons, -String.toList_intercalate]
    rw [htext, hlx.scan_name hs (hlx.breaks (by decide) _), hlx.scan_mark (by decide),
      ih ht hsegs]
    simp [segmentTokens]

/-- A dotted name is cut into its segments. -/
theorem Lexicon.CutsSource.scan_path {lx : Lexicon} (hlx : lx.CutsSource) {name : String}
    (hname : isPathName name = true) :
    ∃ s segs, isIdentifier s = true ∧ Dotted.segments name = s :: segs ∧
      ∀ {rest}, lx.Breaks rest →
        lx.scan (name.toList ++ rest) = .word s :: (segmentTokens segs ++ lx.scan rest) := by
  obtain ⟨s, segs, hsegs⟩ := List.exists_cons_of_ne_nil (Dotted.segments_ne_nil name)
  have hjoin : Dotted.join (s :: segs) = name := hsegs ▸ Dotted.join_segments name
  rw [isPathName, hsegs, List.all_eq_true, List.forall_mem_cons] at hname
  refine ⟨s, segs, hname.1, hsegs, fun hrest => ?_⟩
  rw [← hjoin]
  exact hlx.scan_join hname.1 hname.2 hrest

theorem keyword_ne_of_isIdentifier {s : String} (hs : isIdentifier s = true) (p : Primitive) :
    p.keyword ≠ s := by
  rintro rfl
  revert hs
  cases p <;> decide

/-- A dotted name can be told from what follows it. -/
theorem Lexicon.CutsSource.legible {lx : Lexicon} (hlx : lx.CutsSource) {name : String}
    (hname : isPathName name = true) : lx.Legible name := by
  obtain ⟨s, segs, hs, hsegs, hscan⟩ := hlx.scan_path hname
  have hjoin : Dotted.join (s :: segs) = name := hsegs ▸ Dotted.join_segments name
  have halone : lx.scan name.toList = .word s :: segmentTokens segs := by
    simpa using hscan breaks_nil
  refine ⟨fun hrest => ?_, fun hts => ?_, fun p hp => ?_⟩
  · rw [hscan hrest, halone, List.cons_append]
  · rw [halone, List.cons_append, readPath, readSegments_tokens s segs hts, hjoin]
  · -- A keyword has no dot in it, so it would be the only segment.
    have hplain : Dotted.segments p.keyword = [p.keyword] := by cases p <;> decide
    rw [← hp, hplain] at hsegs
    cases hsegs
    exact keyword_ne_of_isIdentifier hs p rfl

end TupleAssign
