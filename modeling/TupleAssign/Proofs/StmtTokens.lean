import TupleAssign.Proofs.Identifiers
import TupleAssign.Proofs.StmtWords
/-!
# The tokens of a simple statement

A statement is simple if its expressions are names and numbers. Nothing is quoted in its text, so
its tokens are those of its words (`scan_render_stmt`), and like the words they are those of its
parts behind those of a header.
-/

namespace TupleAssign.Tree

/-! ## Simple statements -/

/-- Whether the expression is a name or a number without a sign. -/
def Expr.isSimple : Expr → Bool
  | .int _ v => 0 ≤ v
  | .ident _ n => isIdentifier n
  | _ => false

mutual

/-- Whether all expressions are simple, variables have identifiers as names and types dotted
names. -/
def Stmt.isSimple : Stmt → Bool
  | .expr _ e => e.isSimple
  | .localVar _ t n init _ => t.names.all isPathName && isIdentifier n && init.all Expr.isSimple
  | .block _ ss => Stmt.areSimple ss
  | .ifElse _ c t none => c.isSimple && t.isSimple
  | .ifElse _ c t (some e) => c.isSimple && t.isSimple && e.isSimple
  | .whileLoop _ c b => c.isSimple && b.isSimple
  | .switch _ c arms => c.isSimple && Stmt.armsAreSimple arms
  | .returnWith _ e => e.all Expr.isSimple
  | .breakOut _ | .continueOn _ | .empty _ => true

def Stmt.areSimple : List Stmt → Bool
  | [] => true
  | s :: ss => s.isSimple && Stmt.areSimple ss

def Stmt.armsAreSimple : List Arm → Bool
  | [] => true
  | .mk label ss :: arms => label.all Expr.isSimple && Stmt.areSimple ss && Stmt.armsAreSimple arms

end

/-- The lexicon of texts in which nothing is quoted. -/
def plainLexicon : Lexicon where
  isWord := isNamePart
  isQuote _ := false

theorem plainLexicon_cutsSource : plainLexicon.CutsSource where
  isWord := rfl
  isQuote _ h := by cases h

/-! ## Tokens -/

section Tokens

open Lexicon

theorem scan_words (cs : List Char) :
    (words cs).flatMap plainLexicon.scan = plainLexicon.scan cs := by
  refine (scan_eq_flatMap_words (fun _ => rfl) (fun c hc => ?_) cs).symm
  simp only [Char.isWhitespace, Bool.or_eq_true, decide_eq_true_eq] at hc
  rcases hc with ((rfl | rfl) | rfl) | rfl <;> rfl

def Stmt.tokens (s : Stmt) : List Token := s.words.flatMap plainLexicon.scan

def Arm.tokens (a : Arm) : List Token := a.words.flatMap plainLexicon.scan

theorem scan_render_stmt (s : Stmt) : plainLexicon.scan s.render.toList = s.tokens := by
  rw [← scan_words, words_render, Stmt.tokens]

theorem scan_simple {e : Expr} (h : e.isSimple = true) {rest : List Char}
    (hrest : plainLexicon.Breaks rest) :
    plainLexicon.scan (e.render.toList ++ rest) = .word e.render :: plainLexicon.scan rest := by
  cases e with
  | int s v =>
    simp only [Expr.isSimple, decide_eq_true_eq] at h
    obtain ⟨n, rfl⟩ := Int.eq_ofNat_of_zero_le h
    exact plainLexicon_cutsSource.scan_number n hrest
  | ident s n => exact plainLexicon_cutsSource.scan_name h hrest
  | _ => cases h

theorem scan_mark_plain {c : Char} (hc : c ∈ sourceMarks) (cs : List Char) :
    plainLexicon.scan (c :: cs) = .mark c :: plainLexicon.scan cs :=
  plainLexicon_cutsSource.scan_mark hc cs

theorem scan_word_blank {w : String} (hne : w ≠ "") (hw : w.toList.all isNamePart = true)
    (cs : List Char) :
    plainLexicon.scan (w.toList ++ ' ' :: cs) = .word w :: plainLexicon.scan cs := by
  rw [scan_word hne hw (plainLexicon_cutsSource.breaks_blank cs),
    plainLexicon_cutsSource.scan_blank]

/-- The header of a statement that depends on an expression. -/
def headerTokens (w : String) (c : Expr) : List Token :=
  [.word w, .mark '(', .word c.render, .mark ')']

theorem scan_header {header w : String} (hheader : header.toList = w.toList ++ [' ', '('])
    (hne : w ≠ "") (hw : w.toList.all isNamePart = true) {c : Expr} (hc : c.isSimple = true) :
    plainLexicon.scan (header ++ c.render ++ ")").toList = headerTokens w c := by
  have htext : (header ++ c.render ++ ")").toList =
      w.toList ++ ' ' :: '(' :: (c.render.toList ++ [')']) := by
    simp [hheader]
  rw [htext, scan_word_blank hne hw, scan_mark_plain (by decide),
    scan_simple hc (plainLexicon_cutsSource.breaks (by decide) _),
    scan_mark_plain (by decide), scan_nil, headerTokens]

/-- The tokens behind the name of a variable. -/
def initTokens : Option Expr → List Token
  | none => [.mark ';']
  | some e => [.mark '=', .word e.render, .mark ';']

theorem scan_declaration {t : Ty} (ht : t.names.all isPathName = true) {n : String}
    (hn : isIdentifier n = true) {init : Option Expr} (hinit : init.all Expr.isSimple = true) :
    plainLexicon.scan (withInit (t.render ++ " " ++ n) init).toList =
      t.tokens plainLexicon ++ .word n :: initTokens init := by
  have hlx := plainLexicon_cutsSource
  have hnames : ∀ n ∈ t.names, plainLexicon.Legible n :=
    fun n hn => hlx.legible (List.all_eq_true.1 ht n hn)
  have hscan : ∀ {rest : List Char}, plainLexicon.Breaks rest →
      plainLexicon.scan (t.render.toList ++ ' ' :: (n.toList ++ rest)) =
        t.tokens plainLexicon ++ .word n :: plainLexicon.scan rest := by
    intro rest hrest
    rw [scan_ty hlx.cutsTypes t hnames (hlx.breaks_blank _), hlx.scan_blank, hlx.scan_name hn hrest]
  cases init with
  | none =>
    have htext : (withInit (t.render ++ " " ++ n) none).toList =
        t.render.toList ++ ' ' :: (n.toList ++ [';']) := by
      simp [withInit]
    rw [htext, hscan (hlx.breaks (by decide) _), scan_mark_plain (by decide), scan_nil, initTokens]
  | some e =>
    have htext : (withInit (t.render ++ " " ++ n) (some e)).toList =
        t.render.toList ++ ' ' ::
          (n.toList ++ ' ' :: '=' :: ' ' :: (e.render.toList ++ [';'])) := by
      simp [withInit]
    rw [htext, hscan (hlx.breaks_blank _), hlx.scan_blank, scan_mark_plain (by decide),
      hlx.scan_blank, scan_simple hinit (hlx.breaks (by decide) _),
      scan_mark_plain (by decide), scan_nil, initTokens]

/-! ### Forms of statements -/

section Forms

variable (s : Span)

theorem tokens_of_line {s : Stmt} {text : String} (hblock : s.isBlock = false)
    (h : s.inner = [line text]) : s.tokens = plainLexicon.scan text.toList := by
  rw [Stmt.tokens, words_of_not_isBlock hblock, h, lineWords_line, lineWords_nil, List.append_nil,
    scan_words]

theorem tokens_expr {e : Expr} (he : e.isSimple = true) :
    (Stmt.expr s e).tokens = [.word e.render, .mark ';'] := by
  have htext : (e.render ++ ";").toList = e.render.toList ++ [';'] := by simp
  rw [tokens_of_line rfl rfl, htext,
    scan_simple he (plainLexicon_cutsSource.breaks (by decide) _),
    scan_mark_plain (by decide), scan_nil]

theorem tokens_localVar {t : Ty} (ht : t.names.all isPathName = true) {n : String}
    (hn : isIdentifier n = true) {init : Option Expr} (hinit : init.all Expr.isSimple = true)
    (isFinal : Bool) :
    (Stmt.localVar s t n init isFinal).tokens =
      (if isFinal then [Token.word "final"] else []) ++
        (t.tokens plainLexicon ++ .word n :: initTokens init) := by
  rw [tokens_of_line rfl rfl, ← scan_declaration ht hn hinit]
  cases isFinal with
  | false => simp
  | true =>
    have htext : (withInit ("final " ++ t.render ++ " " ++ n) init).toList =
        "final".toList ++ ' ' :: (withInit (t.render ++ " " ++ n) init).toList := by
      cases init <;> simp [withInit]
    simp only [↓reduceIte, List.singleton_append]
    rw [htext, scan_word_blank (by decide) (by decide)]

theorem tokens_block (ss : List Stmt) :
    (Stmt.block s ss).tokens = .mark '\x7b' :: (ss.flatMap Stmt.tokens ++ [.mark '\x7d']) := by
  rw [Stmt.tokens, words_block, List.flatMap_cons, List.flatMap_append, List.flatMap_assoc]
  rfl

theorem tokens_ifElse_none {c : Expr} (hc : c.isSimple = true) (t : Stmt) :
    (Stmt.ifElse s c t none).tokens = headerTokens "if" c ++ t.tokens := by
  rw [Stmt.tokens, words_ifElse_none, List.flatMap_append, scan_words,
    scan_header (w := "if") (by decide) (by decide) (by decide) hc, Stmt.tokens]

theorem tokens_ifElse_some {c : Expr} (hc : c.isSimple = true) (t e : Stmt) :
    (Stmt.ifElse s c t (some e)).tokens =
      headerTokens "if" c ++ (t.tokens ++ .word "else" :: e.tokens) := by
  rw [Stmt.tokens, words_ifElse_some, List.flatMap_append, scan_words,
    scan_header (w := "if") (by decide) (by decide) (by decide) hc, List.flatMap_append,
    List.flatMap_cons]
  rfl

theorem tokens_whileLoop {c : Expr} (hc : c.isSimple = true) (b : Stmt) :
    (Stmt.whileLoop s c b).tokens = headerTokens "while" c ++ b.tokens := by
  rw [Stmt.tokens, words_whileLoop, List.flatMap_append, scan_words,
    scan_header (w := "while") (by decide) (by decide) (by decide) hc, Stmt.tokens]

theorem tokens_switch {c : Expr} (hc : c.isSimple = true) (arms : List Arm) :
    (Stmt.switch s c arms).tokens =
      headerTokens "switch" c ++ .mark '\x7b' :: (arms.flatMap Arm.tokens ++ [.mark '\x7d']) := by
  rw [Stmt.tokens, words_switch, List.flatMap_append, scan_words,
    scan_header (w := "switch") (by decide) (by decide) (by decide) hc, List.flatMap_cons,
    List.flatMap_append, List.flatMap_assoc]
  rfl

theorem tokens_returnWith {e : Option Expr} (he : e.all Expr.isSimple = true) :
    (Stmt.returnWith s e).tokens =
      .word "return" :: ((e.map fun e => Token.word e.render).toList ++ [.mark ';']) := by
  cases e with
  | none => rfl
  | some e =>
    have htext : ("return " ++ e.render ++ ";").toList =
        "return".toList ++ ' ' :: (e.render.toList ++ [';']) := by
      simp
    rw [tokens_of_line rfl rfl, htext, scan_word_blank (by decide) (by decide),
      scan_simple he (plainLexicon_cutsSource.breaks (by decide) _),
      scan_mark_plain (by decide), scan_nil]
    rfl

/-- The tokens before the statements of an arm. -/
def labelTokens : Option Expr → List Token
  | none => [.word "default", .mark ':']
  | some e => [.word "case", .word e.render, .mark ':']

theorem tokens_arm {label : Option Expr} (hlabel : label.all Expr.isSimple = true)
    (ss : List Stmt) :
    (Arm.mk label ss).tokens = labelTokens label ++ ss.flatMap Stmt.tokens := by
  rw [Arm.tokens, Arm.words, List.flatMap_append, scan_words, List.flatMap_assoc]
  cases label with
  | none =>
    have htext : (labelText none).toList = "default".toList ++ [':'] := by decide
    rw [Arm.label, htext, scan_word (by decide) (by decide)
      (plainLexicon_cutsSource.breaks (by decide) _), scan_mark_plain (by decide), scan_nil]
    rfl
  | some e =>
    have htext : (labelText (some e)).toList =
        "case".toList ++ ' ' :: (e.render.toList ++ [':']) := by
      simp [labelText]
    rw [Arm.label, htext, scan_word_blank (by decide) (by decide),
      scan_simple hlabel (plainLexicon_cutsSource.breaks (by decide) _),
      scan_mark_plain (by decide), scan_nil]
    rfl

end Forms

end Tokens

end TupleAssign.Tree
