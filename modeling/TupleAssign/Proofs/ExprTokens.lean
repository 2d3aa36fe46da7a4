import TupleAssign.Proofs.Identifiers
/-!
# The tokens of an expression

`Expr.tokens` lists the tokens that an expression is written with, and its text is cut into just
these (`scan_render`). Asked for is what makes the text readable at all (`Expr.isLegible`): names
that are no keywords, numbers without a sign, and no assignment on the left of an assignment.
-/

namespace TupleAssign.Tree

/-! ## Expressions that can be told from their text -/

def Expr.isAssign : Expr → Bool
  | .assign _ _ _ => true
  | _ => false

mutual

/-- Whether names are identifiers, types have dotted names, numbers are not negative and what is
assigned to is no assignment. -/
def Expr.isLegible : Expr → Bool
  | .int _ v => 0 ≤ v
  | .bool _ _ | .str _ _ | .null _ | .self _ => true
  | .ident _ n => isIdentifier n
  | .field _ r n => r.isLegible && isIdentifier n
  | .index _ r i => r.isLegible && i.isLegible
  | .call _ none n args => isIdentifier n && Expr.isLegibleAll args
  | .call _ (some r) n args => r.isLegible && isIdentifier n && Expr.isLegibleAll args
  | .create _ t args => t.names.all isPathName && Expr.isLegibleAll args
  | .unary _ _ e => e.isLegible
  | .binary _ _ l r => l.isLegible && r.isLegible
  | .conditional _ c t e => c.isLegible && t.isLegible && e.isLegible
  | .assign _ t v => !t.isAssign && t.isLegible && v.isLegible

def Expr.isLegibleAll : List Expr → Bool
  | [] => true
  | e :: es => e.isLegible && Expr.isLegibleAll es

end

/-! ## Tokens -/

def sourceLexicon : Lexicon where
  isWord := isNamePart
  isQuote c := c == '"'

theorem sourceLexicon_cutsSource : sourceLexicon.CutsSource where
  isWord := rfl
  isQuote _ h := eq_of_beq h

/-- The tokens of `e` where `e` stands as an operand. -/
def Expr.operand (e : Expr) (ts : List Token) : List Token :=
  if e.isCompound then .mark '(' :: (ts ++ [.mark ')']) else ts

mutual

def Expr.tokens : Expr → List Token
  | .int _ v => [.word (toString v)]
  | .bool _ v => [.word (if v then "true" else "false")]
  | .str _ s => [.text s]
  | .null _ => [.word "null"]
  | .self _ => [.word "this"]
  | .ident _ n => [.word n]
  | .field _ r n => r.operand r.tokens ++ [.mark '.', .word n]
  | .index _ r i => r.operand r.tokens ++ .mark '[' :: (i.tokens ++ [.mark ']'])
  | .call _ none n args => .word n :: .mark '(' :: Expr.argTokens args
  | .call _ (some r) n args =>
    r.operand r.tokens ++ .mark '.' :: .word n :: .mark '(' :: Expr.argTokens args
  | .create _ t args => .word "new" :: (t.tokens sourceLexicon ++ .mark '(' :: Expr.argTokens args)
  | .unary _ op e => op.symbol.toList.map .mark ++ e.operand e.tokens
  | .binary _ op l r => l.operand l.tokens ++ (op.symbol.toList.map .mark ++ r.operand r.tokens)
  | .conditional _ c t e =>
    c.operand c.tokens ++ .mark '?' :: (t.operand t.tokens ++ .mark ':' :: e.operand e.tokens)
  | .assign _ t v => t.tokens ++ .mark '=' :: v.tokens

/-- The tokens of arguments, with the mark that closes their list. -/
def Expr.argTokens : List Expr → List Token
  | [] => [.mark ')']
  | e :: es => e.tokens ++ Expr.furtherTokens es

/-- The tokens behind an argument. -/
def Expr.furtherTokens : List Expr → List Token
  | [] => [.mark ')']
  | e :: es => .mark ',' :: (e.tokens ++ Expr.furtherTokens es)

end

/-! ## Scanning -/

/-- The text of the expression is cut into its tokens. -/
def Scans (e : Expr) : Prop :=
  ∀ {rest : List Char}, sourceLexicon.Breaks rest →
    sourceLexicon.scan (e.render.toList ++ rest) = e.tokens ++ sourceLexicon.scan rest

section Scanning

open Lexicon

theorem scan_mark {c : Char} (hc : c ∈ sourceMarks) (cs : List Char) :
    sourceLexicon.scan (c :: cs) = .mark c :: sourceLexicon.scan cs :=
  sourceLexicon_cutsSource.scan_mark hc cs

theorem breaks_mark {c : Char} (hc : c ∈ sourceMarks) (cs : List Char) :
    sourceLexicon.Breaks (c :: cs) :=
  sourceLexicon_cutsSource.breaks hc cs

theorem scan_blank (cs : List Char) : sourceLexicon.scan (' ' :: cs) = sourceLexicon.scan cs :=
  sourceLexicon_cutsSource.scan_blank cs

theorem breaks_blank (cs : List Char) : sourceLexicon.Breaks (' ' :: cs) :=
  sourceLexicon_cutsSource.breaks_blank cs

theorem Scans.operand {e : Expr} (h : Scans e) {rest : List Char}
    (hrest : sourceLexicon.Breaks rest) :
    sourceLexicon.scan ((e.asOperand e.render).toList ++ rest) =
      e.operand e.tokens ++ sourceLexicon.scan rest := by
  unfold Expr.asOperand Expr.operand
  split
  · have htext : ("(" ++ e.render ++ ")").toList ++ rest =
        '(' :: (e.render.toList ++ ')' :: rest) := by
      simp
    rw [htext, scan_mark (by decide), h (breaks_mark (by decide) _), scan_mark (by decide)]
    simp
  · exact h hrest

theorem scan_symbol {s : String} (hs : s.toList.all sourceMarks.contains = true)
    (rest : List Char) :
    sourceLexicon.scan (s.toList ++ rest) = s.toList.map .mark ++ sourceLexicon.scan rest := by
  revert hs
  induction s.toList with
  | nil => simp
  | cons c cs ih =>
    intro hs
    rw [List.all_cons, Bool.and_eq_true, List.contains_iff_mem] at hs
    rw [List.cons_append, scan_mark hs.1, ih hs.2, List.map_cons, List.cons_append]

theorem unaryOp_marks (op : UnaryOp) : op.symbol.toList.all sourceMarks.contains = true := by
  cases op <;> decide

theorem binaryOp_marks (op : BinaryOp) : op.symbol.toList.all sourceMarks.contains = true := by
  cases op <;> decide

/-- Arguments with the mark that closes their list. -/
def closedText : List String → List Char
  | [] => [')']
  | s :: l => s.toList ++ (furtherText l ++ [')'])

theorem toList_argumentList (l : List String) : (argumentList l).toList = '(' :: closedText l := by
  cases l with
  | nil => simp [argumentList, closedText]
  | cons s l => simp [argumentList, closedText, toList_commas, -String.toList_intercalate]

theorem breaks_furtherExprs (es : List Expr) (rest : List Char) :
    sourceLexicon.Breaks (furtherText (Expr.renderAll es) ++ ')' :: rest) := by
  cases es with
  | nil => exact breaks_mark (by decide) rest
  | cons e es => exact breaks_mark (by decide) _

mutual

theorem scans : ∀ e : Expr, e.isLegible = true → Scans e
  | .int s v, h, rest, hrest => by
    simp only [Expr.isLegible, decide_eq_true_eq] at h
    obtain ⟨n, rfl⟩ := Int.eq_ofNat_of_zero_le h
    exact sourceLexicon_cutsSource.scan_number n hrest
  | .bool s v, _, rest, hrest => by
    rw [Expr.render, Expr.tokens]
    cases v <;> exact scan_word (by decide) (by decide) hrest
  | .str s t, _, rest, hrest => by
    rw [Expr.render, Expr.tokens]
    exact scan_quote (fun _ => rfl) rfl t rest
  | .null s, _, rest, hrest => by
    rw [Expr.render, Expr.tokens]
    exact scan_word (by decide) (by decide) hrest
  | .self s, _, rest, hrest => by
    rw [Expr.render, Expr.tokens]
    exact scan_word (by decide) (by decide) hrest
  | .ident s n, h, rest, hrest => by
    rw [Expr.render, Expr.tokens]
    exact sourceLexicon_cutsSource.scan_name h hrest
  | .field s r n, h, rest, hrest => by
    simp only [Expr.isLegible, Bool.and_eq_true] at h
    have htext : (Expr.field s r n).render.toList ++ rest =
        (r.asOperand r.render).toList ++ '.' :: (n.toList ++ rest) := by
      simp [Expr.render]
    rw [htext, Scans.operand (scans r h.1) (breaks_mark (by decide) _), scan_mark (by decide),
      sourceLexicon_cutsSource.scan_name h.2 hrest, Expr.tokens]
    simp
  | .index s r i, h, rest, hrest => by
    simp only [Expr.isLegible, Bool.and_eq_true] at h
    have htext : (Expr.index s r i).render.toList ++ rest =
        (r.asOperand r.render).toList ++ '[' :: (i.render.toList ++ ']' :: rest) := by
      simp [Expr.render]
    rw [htext, Scans.operand (scans r h.1) (breaks_mark (by decide) _), scan_mark (by decide),
      scans i h.2 (breaks_mark (by decide) _), scan_mark (by decide), Expr.tokens]
    simp
  | .call s none n args, h, rest, hrest => by
    simp only [Expr.isLegible, Bool.and_eq_true] at h
    have htext : (Expr.call s none n args).render.toList ++ rest =
        n.toList ++ '(' :: (closedText (Expr.renderAll args) ++ rest) := by
      simp [Expr.render, toList_argumentList]
    rw [htext, sourceLexicon_cutsSource.scan_name h.1 (breaks_mark (by decide) _),
      scan_mark (by decide), scan_args args h.2, Expr.tokens]
    simp
  | .call s (some r) n args, h, rest, hrest => by
    simp only [Expr.isLegible, Bool.and_eq_true] at h
    have htext : (Expr.call s (some r) n args).render.toList ++ rest =
        (r.asOperand r.render).toList ++
          '.' :: (n.toList ++ '(' :: (closedText (Expr.renderAll args) ++ rest)) := by
      simp [Expr.render, toList_argumentList]
    rw [htext, Scans.operand (scans r h.1.1) (breaks_mark (by decide) _), scan_mark (by decide),
      sourceLexicon_cutsSource.scan_name h.1.2 (breaks_mark (by decide) _), scan_mark (by decide),
      scan_args args h.2, Expr.tokens]
    simp
  | .create s t args, h, rest, hrest => by
    simp only [Expr.isLegible, Bool.and_eq_true, List.all_eq_true] at h
    have hnames : ∀ n ∈ t.names, sourceLexicon.Legible n :=
      fun n hn => sourceLexicon_cutsSource.legible (h.1 n hn)
    have htext : (Expr.create s t args).render.toList ++ rest =
        "new".toList ++ ' ' ::
          (t.render.toList ++ '(' :: (closedText (Expr.renderAll args) ++ rest)) := by
      simp [Expr.render, toList_argumentList]
    rw [htext, scan_word (by decide) (by decide) (breaks_blank _), scan_blank,
      scan_ty sourceLexicon_cutsSource.cutsTypes t hnames (breaks_mark (by decide) _),
      scan_mark (by decide), scan_args args h.2, Expr.tokens]
    simp
  | .unary s op e, h, rest, hrest => by
    have htext : (Expr.unary s op e).render.toList ++ rest =
        op.symbol.toList ++ ((e.asOperand e.render).toList ++ rest) := by
      simp [Expr.render]
    rw [htext, scan_symbol (unaryOp_marks op), Scans.operand (scans e h) hrest, Expr.tokens]
    simp
  | .binary s op l r, h, rest, hrest => by
    simp only [Expr.isLegible, Bool.and_eq_true] at h
    have htext : (Expr.binary s op l r).render.toList ++ rest =
        (l.asOperand l.render).toList ++
          ' ' :: (op.symbol.toList ++ ' ' :: ((r.asOperand r.render).toList ++ rest)) := by
      simp [Expr.render]
    rw [htext, Scans.operand (scans l h.1) (breaks_blank _), scan_blank,
      scan_symbol (binaryOp_marks op), scan_blank, Scans.operand (scans r h.2) hrest, Expr.tokens]
    simp
  | .conditional s c t e, h, rest, hrest => by
    simp only [Expr.isLegible, Bool.and_eq_true] at h
    have htext : (Expr.conditional s c t e).render.toList ++ rest =
        (c.asOperand c.render).toList ++ ' ' :: '?' :: ' ' :: ((t.asOperand t.render).toList ++
          ' ' :: ':' :: ' ' :: ((e.asOperand e.render).toList ++ rest)) := by
      simp [Expr.render]
    rw [htext, Scans.operand (scans c h.1.1) (breaks_blank _), scan_blank, scan_mark (by decide),
      scan_blank, Scans.operand (scans t h.1.2) (breaks_blank _), scan_blank, scan_mark (by decide),
      scan_blank, Scans.operand (scans e h.2) hrest, Expr.tokens]
    simp
  | .assign s t v, h, rest, hrest => by
    simp only [Expr.isLegible, Bool.and_eq_true] at h
    have htext : (Expr.assign s t v).render.toList ++ rest =
        t.render.toList ++ ' ' :: '=' :: ' ' :: (v.render.toList ++ rest) := by
      simp [Expr.render]
    rw [htext, scans t h.1.2 (breaks_blank _), scan_blank, scan_mark (by decide), scan_blank,
      scans v h.2 hrest, Expr.tokens]
    simp

theorem scan_args : ∀ (es : List Expr) {rest : List Char}, Expr.isLegibleAll es = true →
    sourceLexicon.scan (closedText (Expr.renderAll es) ++ rest) =
      Expr.argTokens es ++ sourceLexicon.scan rest
  | [], rest, _ => scan_mark (by decide) rest
  | e :: es, rest, h => by
    simp only [Expr.isLegibleAll, Bool.and_eq_true] at h
    have htext : closedText (Expr.renderAll (e :: es)) ++ rest =
        e.render.toList ++ (furtherText (Expr.renderAll es) ++ ')' :: rest) := by
      simp [Expr.renderAll, closedText]
    rw [htext, scans e h.1 (breaks_furtherExprs es rest), scan_furtherExprs es h.2, Expr.argTokens]
    simp

theorem scan_furtherExprs : ∀ (es : List Expr) {rest : List Char}, Expr.isLegibleAll es = true →
    sourceLexicon.scan (furtherText (Expr.renderAll es) ++ ')' :: rest) =
      Expr.furtherTokens es ++ sourceLexicon.scan rest
  | [], rest, _ => scan_mark (by decide) rest
  | e :: es, rest, h => by
    simp only [Expr.isLegibleAll, Bool.and_eq_true] at h
    have htext : furtherText (Expr.renderAll (e :: es)) ++ ')' :: rest =
        ',' :: ' ' :: (e.render.toList ++ (furtherText (Expr.renderAll es) ++ ')' :: rest)) := by
      simp [Expr.renderAll, furtherText]
    rw [htext, scan_mark (by decide), scan_blank, scans e h.1 (breaks_furtherExprs es rest),
      scan_furtherExprs es h.2, Expr.furtherTokens]
    simp

end

/-- The text of an expression is cut into its tokens. -/
theorem scan_render {e : Expr} (h : e.isLegible = true) :
    sourceLexicon.scan e.render.toList = e.tokens := by
  have hscan := scans e h breaks_nil
  rwa [List.append_nil, scan_nil, List.append_nil] at hscan

end Scanning

end TupleAssign.Tree
