import TupleAssign.Tree.Print
/-!
# Texts as tokens

A reader of a text sees words, marks and quoted texts; white space only keeps them apart. Which
characters make up words is laid down by a `Lexicon`, and `Lexicon.scan` cuts a text accordingly.
What a piece of text is cut into does not depend on what follows it, unless the piece ends in a word
that goes on there (`Lexicon.Breaks`).

Two texts that have the same `words` differ in the amount of white space only. If nothing is quoted,
they are cut into the same tokens (`Lexicon.scan_eq_flatMap_words`).
-/

namespace TupleAssign

inductive Token where
  | word (s : String)
  | mark (c : Char)
  | text (s : String)
deriving DecidableEq

/-- Which characters make up words, and which open and close a quoted text. All others but white
space are marks. -/
structure Lexicon where
  isWord : Char → Bool
  isQuote : Char → Bool

namespace Lexicon

/-! ## Scanning -/

/-- Where a scan stands: between two tokens, in a word, in a quoted text, or in one behind a
backslash. -/
inductive Scan where
  | between
  | inWord (cs : List Char)
  | inText (cs : List Char)
  | escaped (cs : List Char)

/-- The token that the end of the text completes. -/
def Scan.finish : Scan → List Token
  | .between => []
  | .inWord cs => [.word (String.ofList cs)]
  | .inText cs | .escaped cs => [.text (String.ofList cs)]

/-- What a character stands for behind a backslash. -/
def unescape : Char → Char
  | 'n' => '\n'
  | c => c

variable (lx : Lexicon)

/-- The tokens that a character completes if no token is open, and where it leads. -/
def start (c : Char) : List Token × Scan :=
  if lx.isWord c then ([], .inWord [c])
  else if c.isWhitespace then ([], .between)
  else if lx.isQuote c then ([], .inText [])
  else ([.mark c], .between)

/-- The tokens that a character completes, and where it leads. -/
def step : Scan → Char → List Token × Scan
  | .between, c => lx.start c
  | .inWord cs, c =>
    if lx.isWord c then ([], .inWord (cs ++ [c]))
    else (.word (String.ofList cs) :: (lx.start c).1, (lx.start c).2)
  | .inText cs, c =>
    if c = '\\' then ([], .escaped cs)
    else if lx.isQuote c then ([.text (String.ofList cs)], .between)
    else ([], .inText (cs ++ [c]))
  | .escaped cs, c => ([], .inText (cs ++ [unescape c]))

def scanFrom : Scan → List Char → List Token
  | s, [] => s.finish
  | s, c :: cs => (lx.step s c).1 ++ scanFrom (lx.step s c).2 cs

/-- The tokens of a text. Words are as long as they can be. -/
def scan (cs : List Char) : List Token := lx.scanFrom .between cs

/-- No word goes on at the beginning of the text. -/
def Breaks (cs : List Char) : Prop := ∀ c ∈ cs.head?, lx.isWord c = false

variable {lx}

@[simp]
theorem breaks_nil : lx.Breaks [] := by simp [Breaks]

@[simp]
theorem breaks_cons {c : Char} {cs : List Char} : lx.Breaks (c :: cs) ↔ lx.isWord c = false := by
  simp [Breaks]

@[simp]
theorem scan_nil : lx.scan [] = [] := rfl

theorem scan_white {c : Char} (hword : lx.isWord c = false) (hwhite : c.isWhitespace = true)
    (cs : List Char) : lx.scan (c :: cs) = lx.scan cs := by
  simp [scan, scanFrom, step, start, hword, hwhite]

theorem scan_mark {c : Char} (hword : lx.isWord c = false) (hwhite : c.isWhitespace = false)
    (hquote : lx.isQuote c = false) (cs : List Char) :
    lx.scan (c :: cs) = .mark c :: lx.scan cs := by
  simp [scan, scanFrom, step, start, hword, hwhite, hquote]

/-! ### Words -/

/-- A scan that is in a word goes on to the end of the word. -/
theorem scanFrom_inWord (w : List Char) {cs rest : List Char} (hcs : cs.all lx.isWord = true)
    (hrest : lx.Breaks rest) :
    lx.scanFrom (.inWord w) (cs ++ rest) = .word (String.ofList (w ++ cs)) :: lx.scan rest := by
  induction cs generalizing w with
  | nil =>
    cases rest with
    | nil => simp [scanFrom, Scan.finish]
    | cons c rest =>
      rw [breaks_cons] at hrest
      simp [scanFrom, scan, step, hrest]
  | cons c cs ih =>
    rw [List.all_cons, Bool.and_eq_true] at hcs
    simp [scanFrom, step, hcs.1, ih _ hcs.2]

theorem scan_word {w : String} (hne : w ≠ "") (hw : w.toList.all lx.isWord = true)
    {rest : List Char} (hrest : lx.Breaks rest) :
    lx.scan (w.toList ++ rest) = .word w :: lx.scan rest := by
  obtain ⟨c, cs, hcs⟩ : ∃ c cs, w.toList = c :: cs := by
    refine List.exists_cons_of_ne_nil ?_
    simpa using hne
  rw [hcs, List.all_cons, Bool.and_eq_true] at hw
  have hscan := scanFrom_inWord [c] hw.2 hrest
  have hword : String.ofList ([c] ++ cs) = w := by
    rw [List.singleton_append, ← hcs, String.ofList_toList]
  rw [hword] at hscan
  rw [hcs, scan, List.cons_append, scanFrom]
  simpa [step, start, hw.1] using hscan

/-! ### Quoted texts -/

/-- Inside of quotes an escaped character is read as that character. -/
theorem scanFrom_escapeChar (hquote : ∀ c, lx.isQuote c = (c == '"')) (t : List Char) (c : Char)
    (rest : List Char) :
    lx.scanFrom (.inText t) (Tree.escapeChar c ++ rest) =
      lx.scanFrom (.inText (t ++ [c])) rest := by
  unfold Tree.escapeChar
  split
  · simp [scanFrom, step, unescape]
  · simp [scanFrom, step, unescape]
  · simp [scanFrom, step, unescape]
  · next h₁ h₂ h₃ =>
    have hc : c ≠ '"' := fun h => h₁ h
    have hc' : c ≠ '\\' := fun h => h₂ h
    simp [scanFrom, step, hquote, hc, hc']

theorem scanFrom_escaped (hquote : ∀ c, lx.isQuote c = (c == '"')) (t cs rest : List Char) :
    lx.scanFrom (.inText t) (cs.flatMap Tree.escapeChar ++ rest) =
      lx.scanFrom (.inText (t ++ cs)) rest := by
  induction cs generalizing t with
  | nil => simp
  | cons c cs ih =>
    rw [List.flatMap_cons, List.append_assoc, scanFrom_escapeChar hquote, ih, List.append_assoc,
      List.singleton_append]

/-- A quoted text ends at its own closing quote, whatever is in it. -/
theorem scan_quote (hquote : ∀ c, lx.isQuote c = (c == '"')) (hword : lx.isWord '"' = false)
    (s : String) (rest : List Char) :
    lx.scan ((Tree.quote s).toList ++ rest) = .text s :: lx.scan rest := by
  have hopen : lx.scan ('"' :: (s.toList.flatMap Tree.escapeChar ++ '"' :: rest)) =
      lx.scanFrom (.inText []) (s.toList.flatMap Tree.escapeChar ++ '"' :: rest) := by
    simp [scan, scanFrom, step, start, hword, hquote]
  have hclose : lx.scanFrom (.inText s.toList) ('"' :: rest) = .text s :: lx.scan rest := by
    simp [scan, scanFrom, step, hquote]
  have htext : (Tree.quote s).toList ++ rest =
      '"' :: (s.toList.flatMap Tree.escapeChar ++ '"' :: rest) := by
    simp [Tree.quote]
  rw [htext, hopen, scanFrom_escaped hquote, List.nil_append, hclose]

end Lexicon

/-! ## White space -/

/-- The stretches of a text between white space. -/
def words (cs : List Char) : List (List Char) :=
  (cs.splitOnP Char.isWhitespace).filter fun w => !w.isEmpty

@[simp]
theorem words_nil : words [] = [] := by simp [words, List.splitOnP_nil]

/-- White space cuts a text. -/
theorem words_append_white {c : Char} (hc : c.isWhitespace = true) (cs cs' : List Char) :
    words (cs ++ c :: cs') = words cs ++ words cs' := by
  rw [words, List.splitOnP_append_cons cs cs' hc, List.filter_append, words, words]

theorem words_white {c : Char} (hc : c.isWhitespace = true) (cs : List Char) :
    words (c :: cs) = words cs := by
  rw [← List.nil_append (c :: cs), words_append_white hc, words_nil, List.nil_append]

/-- A text without white space is one word. -/
theorem words_of_solid {cs : List Char} (hne : cs ≠ []) (h : cs.any Char.isWhitespace = false) :
    words cs = [cs] := by
  rw [words, List.splitOnP_eq_singleton (by simpa using h)]
  simp [hne]

namespace Lexicon

variable {lx : Lexicon}

/-- Where nothing is quoted, white space cuts the tokens too. -/
theorem scanFrom_append_white (hplain : ∀ c, lx.isQuote c = false) {c : Char}
    (hword : lx.isWord c = false) (hwhite : c.isWhitespace = true) (cs cs' : List Char) :
    lx.scan (cs ++ c :: cs') = lx.scan cs ++ lx.scan cs' ∧
      ∀ w, lx.scanFrom (.inWord w) (cs ++ c :: cs') =
        lx.scanFrom (.inWord w) cs ++ lx.scan cs' := by
  unfold scan
  induction cs with
  | nil => simp [scanFrom, step, start, Scan.finish, hword, hwhite]
  | cons d cs ih =>
    obtain ⟨hbetween, hin⟩ := ih
    have hstart : (lx.start d).1 ++ lx.scanFrom (lx.start d).2 (cs ++ c :: cs') =
        (lx.start d).1 ++ lx.scanFrom (lx.start d).2 cs ++ lx.scanFrom .between cs' := by
      unfold start
      split
      · simp [hin]
      · split <;> simp [hplain, hbetween]
    constructor
    · simpa [scanFrom, step] using hstart
    · intro w
      by_cases hd : lx.isWord d = true
      · simp [scanFrom, step, hd, hin]
      · simpa [scanFrom, step, hd] using hstart

/-- Where nothing is quoted, the tokens of a text are those of its words. -/
theorem scan_eq_flatMap_words (hplain : ∀ c, lx.isQuote c = false)
    (hword : ∀ c, c.isWhitespace = true → lx.isWord c = false) (cs : List Char) :
    lx.scan cs = (words cs).flatMap lx.scan := by
  induction h : cs.length using Nat.strongRecOn generalizing cs with
  | _ n ih =>
    subst h
    cases hcut : cs.any Char.isWhitespace with
    | true =>
      obtain ⟨c, hmem, hc⟩ := List.any_eq_true.1 hcut
      obtain ⟨before, after, rfl⟩ := List.append_of_mem hmem
      have hbefore := ih before.length (by simp) before rfl
      have hafter := ih after.length (by simp; omega) after rfl
      rw [(scanFrom_append_white hplain (hword c hc) hc before after).1, hbefore, hafter,
        words_append_white hc, List.flatMap_append]
    | false =>
      cases cs with
      | nil => simp
      | cons c cs => rw [words_of_solid (List.cons_ne_nil c cs) hcut, List.flatMap_singleton]

end Lexicon

end TupleAssign
