import TupleAssign.Proofs.Tokens
/-!
# The words of a statement

How a statement is laid out on lines and indented does not show in its words. A block has the same
words whether its braces stand on lines of their own or beside a header, so the words of a statement
are those of its parts, with the words of the header before them.
-/

namespace TupleAssign.Tree

/-! ## Lines -/

def Line.words : Line → List (List Char)
  | .blank => []
  | .text _ s => TupleAssign.words s.toList

/-- The words of some lines, one line after the other. -/
def lineWords (ls : List Line) : List (List Char) := ls.flatMap Line.words

theorem words_spaces (depth : Nat) (cs : List Char) :
    words ((String.join (List.replicate depth "    ")).toList ++ cs) = words cs := by
  induction depth with
  | zero => rfl
  | succ depth ih =>
    have htext : (String.join (List.replicate (depth + 1) "    ")).toList ++ cs =
        ' ' :: ' ' :: ' ' :: ' ' ::
          ((String.join (List.replicate depth "    ")).toList ++ cs) := by
      simp [List.replicate_succ]
    rw [htext, words_white rfl, words_white rfl, words_white rfl, words_white rfl, ih]

theorem words_line (l : Line) (cs : List Char) :
    words (l.render.toList ++ cs) = l.words ++ words cs := by
  cases l with
  | blank => exact words_white rfl cs
  | text depth s =>
    have htext : (Line.text depth s).render.toList ++ cs =
        (String.join (List.replicate depth "    ")).toList ++ (s.toList ++ '\n' :: cs) := by
      simp [Line.render]
    rw [htext, words_spaces, words_append_white rfl, Line.words]

theorem words_renderLines (ls : List Line) : words (renderLines ls).toList = lineWords ls := by
  induction ls with
  | nil => rfl
  | cons l ls ih =>
    have htext : (renderLines (l :: ls)).toList = l.render.toList ++ (renderLines ls).toList := by
      simp [renderLines]
    rw [htext, words_line, ih]
    rfl

@[simp]
theorem lineWords_nil : lineWords [] = [] := rfl

@[simp]
theorem lineWords_line (s : String) (ls : List Line) :
    lineWords (line s :: ls) = words s.toList ++ lineWords ls := rfl

@[simp]
theorem lineWords_append (ls ls' : List Line) :
    lineWords (ls ++ ls') = lineWords ls ++ lineWords ls' :=
  List.flatMap_append

@[simp]
theorem lineWords_indent (ls : List Line) : lineWords (indent ls) = lineWords ls := by
  have hline : ∀ l : Line, l.indent.words = l.words := fun l => by cases l <;> rfl
  simp only [lineWords, indent, List.flatMap_map, hline]

/-! ## Statements -/

def Stmt.words (s : Stmt) : List (List Char) := lineWords s.lines

def Arm.words (a : Arm) : List (List Char) :=
  TupleAssign.words (labelText a.label).toList ++ a.stmts.flatMap Stmt.words

theorem words_render (s : Stmt) : words s.render.toList = s.words := words_renderLines s.lines

theorem words_open : words "\x7b".toList = [['\x7b']] := words_of_solid (by decide) (by decide)

theorem words_close : words "\x7d".toList = [['\x7d']] := words_of_solid (by decide) (by decide)

theorem words_append_open (header : String) :
    words (header ++ " \x7b").toList = words header.toList ++ [['\x7b']] := by
  have htext : (header ++ " \x7b").toList = header.toList ++ ' ' :: "\x7b".toList := by simp
  rw [htext, words_append_white rfl, words_open]

theorem words_of_isBlock {s : Stmt} (h : s.isBlock = true) :
    s.words = ['\x7b'] :: (lineWords s.inner ++ [['\x7d']]) := by
  rw [Stmt.words, Stmt.lines, Stmt.standing, if_pos h, List.cons_append, lineWords_line, words_open,
    lineWords_append, lineWords_indent, lineWords_line, words_close]
  rfl

theorem words_of_not_isBlock {s : Stmt} (h : s.isBlock = false) : s.words = lineWords s.inner := by
  rw [Stmt.words, Stmt.lines, Stmt.standing, h]
  rfl

/-- A statement under a header has its own words behind those of the header. -/
theorem lineWords_under (s : Stmt) (header : String) :
    lineWords (s.under header s.inner) ++ lineWords s.closing = words header.toList ++ s.words := by
  cases hblock : s.isBlock with
  | true =>
    rw [Stmt.under, Stmt.closing, hblock, if_pos rfl, if_pos rfl, lineWords_line, words_append_open,
      lineWords_indent, lineWords_line, words_close, words_of_isBlock hblock]
    simp
  | false => simp [Stmt.under, Stmt.closing, words_of_not_isBlock hblock, hblock]

/-- The header of an `else` begins with the brace that the other branch left open. -/
theorem words_else (t : Stmt) :
    words (if t.isBlock then "\x7d else" else "else").toList =
      lineWords t.closing ++ ["else".toList] := by
  have hword : words "else".toList = ["else".toList] := words_of_solid (by decide) (by decide)
  cases hblock : t.isBlock with
  | true =>
    have htext : "\x7d else".toList = "\x7d".toList ++ ' ' :: "else".toList := by decide
    rw [if_pos rfl, htext, words_append_white rfl, words_close, hword, Stmt.closing, if_pos hblock,
      lineWords_line, words_close]
    rfl
  | false =>
    rw [Stmt.closing, hblock]
    exact hword

theorem lineWords_linesAll (ss : List Stmt) :
    lineWords (Stmt.linesAll ss) = ss.flatMap Stmt.words := by
  induction ss with
  | nil => rfl
  | cons s ss ih =>
    rw [Stmt.linesAll, lineWords_append, ih]
    rfl

theorem lineWords_armLines (arms : List Arm) :
    lineWords (Stmt.armLines arms) = arms.flatMap Arm.words := by
  induction arms with
  | nil => rfl
  | cons a arms ih =>
    obtain ⟨label, stmts⟩ := a
    rw [Stmt.armLines, List.cons_append, lineWords_line, lineWords_append, lineWords_indent,
      lineWords_linesAll, ih]
    simp [Arm.words, Arm.label, Arm.stmts]

section Forms

variable (s : Span)

theorem words_block (ss : List Stmt) :
    (Stmt.block s ss).words = ['\x7b'] :: (ss.flatMap Stmt.words ++ [['\x7d']]) := by
  rw [words_of_isBlock rfl, Stmt.inner, lineWords_linesAll]

theorem words_ifElse_none (c : Expr) (t : Stmt) :
    (Stmt.ifElse s c t none).words = words ("if (" ++ c.render ++ ")").toList ++ t.words := by
  rw [words_of_not_isBlock rfl, Stmt.inner, lineWords_append, lineWords_under]

theorem words_ifElse_some (c : Expr) (t e : Stmt) :
    (Stmt.ifElse s c t (some e)).words =
      words ("if (" ++ c.render ++ ")").toList ++ (t.words ++ "else".toList :: e.words) := by
  rw [words_of_not_isBlock rfl, Stmt.inner, lineWords_append, lineWords_append, List.append_assoc,
    lineWords_under, words_else, List.append_assoc, ← List.append_assoc, lineWords_under,
    List.append_assoc]
  rfl

theorem words_whileLoop (c : Expr) (b : Stmt) :
    (Stmt.whileLoop s c b).words = words ("while (" ++ c.render ++ ")").toList ++ b.words := by
  rw [words_of_not_isBlock rfl, Stmt.inner, lineWords_append, lineWords_under]

theorem words_switch (c : Expr) (arms : List Arm) :
    (Stmt.switch s c arms).words = words ("switch (" ++ c.render ++ ")").toList ++
      ['\x7b'] :: (arms.flatMap Arm.words ++ [['\x7d']]) := by
  have hheader : "switch (" ++ c.render ++ ") \x7b" = "switch (" ++ c.render ++ ")" ++ " \x7b" := by
    simp [String.append_assoc]
  rw [words_of_not_isBlock rfl, Stmt.inner, hheader, List.cons_append, lineWords_line,
    words_append_open, lineWords_append, lineWords_indent, lineWords_armLines, lineWords_line,
    words_close]
  simp

end Forms

end TupleAssign.Tree
