import TupleAssign.Proofs.Elses
import TupleAssign.Proofs.ExprTexts
import TupleAssign.Proofs.StmtTokens
/-!
# Statements by their text

The text of a simple statement, one whose expressions are names and numbers, is read back from its
tokens (`readStmt`), and reading gives the statement as its text groups it (`Stmt.grouped`). So the
texts of two statements differ in white space only exactly if the statements are grouped alike.

What is read behind a statement may still belong to it: its open ends take the `else` that follows.
Reading back is therefore stated as an equation with what they take (`ReadsStmt`, `absorb`).
-/

namespace TupleAssign.Tree

open Filter (atTop)

/-! ## Reading -/

def readHeader : List Token → Option (Expr × List Token)
  | .mark '(' :: .word w :: .mark ')' :: ts => some (readWord w, ts)
  | _ => none

def readReturn : List Token → Option (Stmt × List Token)
  | .mark ';' :: ts => some (.returnWith {} none, ts)
  | .word w :: .mark ';' :: ts => some (.returnWith {} (some (readWord w)), ts)
  | _ => none

def readLocal (n : Nat) (isFinal : Bool) (ts : List Token) : Option (Stmt × List Token) := do
  let (t, ts) ← readTy n ts
  match ts with
  | .word v :: .mark ';' :: ts => some (.localVar {} t v none isFinal, ts)
  | .word v :: .mark '=' :: .word w :: .mark ';' :: ts =>
    some (.localVar {} t v (some (readWord w)) isFinal, ts)
  | _ => none

def readLabel : List Token → Option (Option Expr × List Token)
  | .word "default" :: .mark ':' :: ts => some (none, ts)
  | .word "case" :: .word w :: .mark ':' :: ts => some (some (readWord w), ts)
  | _ => none

/-- Whether a list of statements ends here: in front of a closing brace or another arm. -/
def endsList (ts : List Token) : Bool :=
  [some (Token.mark '\x7d'), some (.word "case"), some (.word "default")].contains ts.head?

mutual

/-- Reads a statement off the beginning of a token list, to a given depth. An `else` goes to the
statement that was begun last. -/
def readStmt : Nat → List Token → Option (Stmt × List Token)
  | 0, _ => none
  | n + 1, ts =>
    match ts with
    | .mark ';' :: ts => some (.empty {}, ts)
    | .mark '\x7b' :: ts => do
      let (ss, ts) ← readStmts n ts
      some (.block {} ss, ts.tail)
    | .word "if" :: ts => do
      let (c, ts) ← readHeader ts
      let (t, ts) ← readStmt n ts
      match ts with
      | .word "else" :: ts => do
        let (e, ts) ← readStmt n ts
        some (.ifElse {} c t (some e), ts)
      | ts => some (.ifElse {} c t none, ts)
    | .word "while" :: ts => do
      let (c, ts) ← readHeader ts
      let (b, ts) ← readStmt n ts
      some (.whileLoop {} c b, ts)
    | .word "switch" :: ts => do
      let (c, ts) ← readHeader ts
      let (arms, ts) ← readArms n ts.tail
      some (.switch {} c arms, ts)
    | .word "return" :: ts => readReturn ts
    | .word "break" :: ts => some (.breakOut {}, ts.tail)
    | .word "continue" :: ts => some (.continueOn {}, ts.tail)
    | .word "final" :: ts => readLocal n true ts
    | .word w :: .mark ';' :: ts => some (.expr {} (readWord w), ts)
    | ts => readLocal n false ts

def readStmts : Nat → List Token → Option (List Stmt × List Token)
  | 0, _ => none
  | n + 1, ts =>
    if endsList ts then some ([], ts)
    else do
      let (s, ts) ← readStmt n ts
      let (ss, ts) ← readStmts n ts
      some (s :: ss, ts)

/-- Reads the arms of a switch up to its closing brace. -/
def readArms : Nat → List Token → Option (List Arm × List Token)
  | 0, _ => none
  | n + 1, ts =>
    match ts with
    | .mark '\x7d' :: ts => some ([], ts)
    | ts => do
      let (label, ts) ← readLabel ts
      let (ss, ts) ← readStmts n ts
      let (arms, ts) ← readArms n ts
      some (.mk label ss :: arms, ts)

end

/-- What reading makes of tokens behind a statement: its open ends take what belongs to them. -/
def absorb (n : Nat) : Stmt → List Token → Option (Stmt × List Token)
  | .ifElse s c t none, ts => do
    let (t, ts) ← absorb (n - 1) t ts
    match ts with
    | .word "else" :: ts => do
      let (e, ts) ← readStmt (n - 1) ts
      some (.ifElse s c t (some e), ts)
    | ts => some (.ifElse s c t none, ts)
  | .ifElse s c t (some e), ts => do
    let (e, ts) ← absorb (n - 1) e ts
    some (.ifElse s c t (some e), ts)
  | .whileLoop s c b, ts => do
    let (b, ts) ← absorb (n - 1) b ts
    some (.whileLoop s c b, ts)
  | s, ts => some (s, ts)

/-- A closed statement takes nothing. -/
theorem absorb_of_closed : ∀ {s : Stmt}, s.endsOpen = false →
    ∀ (n : Nat) (ts : List Token), absorb n s ts = some (s, ts)
  | .ifElse _ _ _ none, h, _, _ => by cases h
  | .ifElse _ _ _ (some e), h, _, ts => by
    rw [absorb, absorb_of_closed (s := e) h]
    rfl
  | .whileLoop _ _ b, h, _, ts => by
    rw [absorb, absorb_of_closed (s := b) h]
    rfl
  | .expr _ _, _, _, _ | .localVar _ _ _ _ _, _, _, _ | .block _ _, _, _, _
  | .switch _ _ _, _, _, _ | .returnWith _ _, _, _, _ | .breakOut _, _, _, _
  | .continueOn _, _, _, _ | .empty _, _, _, _ => rfl

/-- Only an `else` is taken. -/
theorem absorb_of_ne {ts : List Token} (hts : ts.head? ≠ some (.word "else")) :
    ∀ (n : Nat) (s : Stmt), absorb n s ts = some (s, ts)
  | n, .ifElse _ _ t none => by
    rw [absorb, absorb_of_ne hts (n - 1) t]
    simp only [Option.bind_eq_bind, Option.bind_some]
    split
    · simp at hts
    · rfl
  | n, .ifElse _ _ _ (some e) => by
    rw [absorb, absorb_of_ne hts (n - 1) e]
    rfl
  | n, .whileLoop _ _ b => by
    rw [absorb, absorb_of_ne hts (n - 1) b]
    rfl
  | _, .expr _ _ | _, .localVar _ _ _ _ _ | _, .block _ _ | _, .switch _ _ _
  | _, .returnWith _ _ | _, .breakOut _ | _, .continueOn _ | _, .empty _ => rfl

/-- The statement is read back from its tokens, grouped as its text is. -/
def ReadsStmt (s : Stmt) : Prop :=
  ∀ ts : List Token, ∀ᶠ n in atTop, readStmt n (s.tokens ++ ts) = absorb n s.grouped ts

/-- An `else` behind an open statement is attached to it. -/
theorem absorb_else {e : Stmt} (he : ReadsStmt e) (ts : List Token) :
    ∀ {s : Stmt}, s.endsOpen = true → ∀ᶠ n in atTop,
      absorb n s (.word "else" :: (e.tokens ++ ts)) = absorb n (s.attach e.grouped) ts
  | .ifElse s c t none, _ => by
    refine eventually_of_succ ?_
    unfold Stmt.attach
    split
    · rename_i hopen
      filter_upwards [absorb_else he ts hopen] with n ht
      rw [absorb, Nat.add_sub_cancel, ht, absorb, Nat.add_sub_cancel]
    · rename_i hclosed
      filter_upwards [he ts] with n he
      rw [absorb, absorb_of_closed (Bool.eq_false_iff.2 hclosed), absorb, Nat.add_sub_cancel]
      simp only [Option.bind_eq_bind, Option.bind_some]
      rw [he]
  | .ifElse s c t (some u), h => by
    refine eventually_of_succ ?_
    filter_upwards [absorb_else he ts (s := u) h] with n hu
    rw [absorb, Nat.add_sub_cancel, hu, Stmt.attach, absorb, Nat.add_sub_cancel]
  | .whileLoop s c b, h => by
    refine eventually_of_succ ?_
    filter_upwards [absorb_else he ts (s := b) h] with n hb
    rw [absorb, Nat.add_sub_cancel, hb, Stmt.attach, absorb, Nat.add_sub_cancel]

theorem readWord_simple {e : Expr} (h : e.isSimple = true) : readWord e.render = e.grouped := by
  cases e with
  | int s v =>
    simp only [Expr.isSimple, decide_eq_true_eq] at h
    obtain ⟨n, rfl⟩ := Int.eq_ofNat_of_zero_le h
    exact readWord_number n
  | ident s n => exact readWord_name h
  | _ => cases h

/-! ### One token ahead -/

/-- The words that begin statements or parts of them. -/
def statementWords : List String :=
  ["if", "else", "while", "switch", "case", "default", "return", "break", "continue", "final"]

theorem not_mem_of_isIdentifier {w : String} (hw : isIdentifier w = true) : w ∉ statementWords := by
  have hreserved : ∀ v ∈ statementWords, v ∈ reservedWords := by decide
  exact fun hmem => ne_of_isIdentifier hw (hreserved w hmem) rfl

theorem not_mem_of_isSimple {e : Expr} (he : e.isSimple = true) : e.render ∉ statementWords := by
  cases e with
  | int s v =>
    simp only [Expr.isSimple, decide_eq_true_eq] at he
    obtain ⟨n, rfl⟩ := Int.eq_ofNat_of_zero_le he
    have hletters : ∀ w ∈ statementWords, w.toList.head?.any Char.isDigit = false := by decide
    exact fun hmem => toString_ne (hletters _ hmem) n rfl
  | ident s n => exact not_mem_of_isIdentifier he
  | _ => cases he

theorem readStmt_expr (n : Nat) {w : String} (hw : w ∉ statementWords) (ts : List Token) :
    readStmt (n + 1) (.word w :: .mark ';' :: ts) = some (.expr {} (readWord w), ts) := by
  rw [readStmt]
  all_goals
    rintro rfl
    revert hw
    decide

theorem readStmt_local (n : Nat) {w : String} (hw : w ∉ statementWords) {ts : List Token}
    (hts : ts.head? ≠ some (.mark ';')) :
    readStmt (n + 1) (.word w :: ts) = readLocal n false (.word w :: ts) := by
  have hword : ∀ v ∈ statementWords, ∀ ts', Token.word w :: ts ≠ .word v :: ts' := by
    intro v hv ts' h
    cases h
    exact hw hv
  rw [readStmt]
  any_goals exact hword _ (by decide)
  · exact fun ts' h => by cases h
  · exact fun ts' h => by cases h
  · intro v ts' h
    cases h
    simp at hts

/-- A type begins with a word that begins no statement, and does not end in front of a
semicolon. -/
def BeginsTy (ts : List Token) : Prop :=
  ∃ w rest, ts = .word w :: rest ∧ w ∉ statementWords ∧ rest.head? ≠ some (.mark ';')

theorem BeginsTy.append {ts ts' : List Token} (h : BeginsTy ts)
    (hts' : ts'.head? ≠ some (.mark ';')) : BeginsTy (ts ++ ts') := by
  obtain ⟨w, rest, rfl, hw, hrest⟩ := h
  refine ⟨w, rest ++ ts', rfl, hw, ?_⟩
  cases rest with
  | nil => exact hts'
  | cons t rest => simpa using hrest

theorem beginsTy_name {name : String} (hname : isPathName name = true) :
    BeginsTy (plainLexicon.scan name.toList) := by
  obtain ⟨w, segs, hw, -, hscan⟩ := plainLexicon_cutsSource.scan_path hname
  have htokens : plainLexicon.scan name.toList = .word w :: segmentTokens segs := by
    simpa using hscan Lexicon.breaks_nil
  refine ⟨w, segmentTokens segs, htokens, not_mem_of_isIdentifier hw, ?_⟩
  cases segs <;> simp [segmentTokens]

theorem beginsTy : ∀ t : Ty, (∀ n ∈ t.names, isPathName n = true) → BeginsTy (t.tokens plainLexicon)
  | .primitive p, _ => by
    refine ⟨p.keyword, [], rfl, ?_, by simp⟩
    cases p <;> decide
  | .named name [], h => beginsTy_name (h name List.mem_cons_self)
  | .named name (t :: args), h => by
    rw [Ty.tokens]
    exact (beginsTy_name (h name List.mem_cons_self)).append (by simp)
  | .array t, h => (beginsTy t h).append (by simp)

theorem readLocal_tokens {t : Ty} (ht : ∀ n ∈ t.names, isPathName n = true) (v : String)
    {init : Option Expr} (hinit : init.all Expr.isSimple = true) (isFinal : Bool)
    (ts : List Token) : ∀ᶠ n in atTop,
      readLocal n isFinal (t.tokens plainLexicon ++ .word v :: (initTokens init ++ ts)) =
        some (.localVar {} t v (init.map Expr.grouped) isFinal, ts) := by
  have hnames : ∀ n ∈ t.names, plainLexicon.Legible n :=
    fun n hn => plainLexicon_cutsSource.legible (ht n hn)
  have hends : EndsName (.word v :: (initTokens init ++ ts)) := by simp [EndsName]
  filter_upwards [readTy_tokens hnames hends (by simp)] with n hread
  rw [readLocal, hread]
  cases init with
  | none => rfl
  | some e =>
    simp only [initTokens, Option.bind_eq_bind, Option.bind_some, List.cons_append,
      List.nil_append, readWord_simple hinit, Option.map_some]

/-- What a statement begins with neither ends a list of statements nor continues one before. -/
def BeginsStmt (ts : List Token) : Prop :=
  ts ≠ [] ∧ ts.head? ≠ some (.word "else") ∧ endsList ts = false

theorem BeginsStmt.of_word {w : String} (hw : w ∉ ["else", "case", "default"]) (ts : List Token) :
    BeginsStmt (.word w :: ts) := by
  simp only [List.mem_cons, List.not_mem_nil, or_false, not_or] at hw
  simp [BeginsStmt, endsList, hw]

theorem BeginsStmt.append {ts : List Token} (h : BeginsStmt ts) (ts' : List Token) :
    BeginsStmt (ts ++ ts') := by
  cases ts with
  | nil => exact absurd rfl h.1
  | cons t ts => simpa [BeginsStmt, endsList] using h

theorem not_mem_branchWords {w : String} (hw : w ∉ statementWords) :
    w ∉ ["else", "case", "default"] := by
  intro hmem
  have hsubset : ∀ v ∈ ["else", "case", "default"], v ∈ statementWords := by decide
  exact hw (hsubset w hmem)

theorem beginsStmt {s : Stmt} (h : s.isSimple = true) : BeginsStmt s.tokens := by
  cases s with
  | expr s e =>
    rw [tokens_expr s h]
    exact .of_word (not_mem_branchWords (not_mem_of_isSimple h)) _
  | localVar s t n init isFinal =>
    simp only [Stmt.isSimple, Bool.and_eq_true] at h
    rw [tokens_localVar s h.1.1 h.1.2 h.2]
    cases isFinal with
    | true => exact .of_word (by decide) _
    | false =>
      obtain ⟨w, rest, htokens, hw, -⟩ := beginsTy t (List.all_eq_true.1 h.1.1)
      rw [htokens]
      exact .of_word (not_mem_branchWords hw) _
  | block s ss =>
    rw [tokens_block]
    simp [BeginsStmt, endsList]
  | ifElse s c t e =>
    cases e with
    | none =>
      simp only [Stmt.isSimple, Bool.and_eq_true] at h
      rw [tokens_ifElse_none s h.1]
      exact .of_word (by decide) _
    | some e =>
      simp only [Stmt.isSimple, Bool.and_eq_true] at h
      rw [tokens_ifElse_some s h.1.1]
      exact .of_word (by decide) _
  | whileLoop s c b =>
    simp only [Stmt.isSimple, Bool.and_eq_true] at h
    rw [tokens_whileLoop s h.1]
    exact .of_word (by decide) _
  | switch s c arms =>
    simp only [Stmt.isSimple, Bool.and_eq_true] at h
    rw [tokens_switch s h.1]
    exact .of_word (by decide) _
  | returnWith s e =>
    rw [tokens_returnWith s h]
    exact .of_word (by decide) _
  | breakOut s => exact .of_word (w := "break") (by decide) [.mark ';']
  | continueOn s => exact .of_word (w := "continue") (by decide) [.mark ';']
  | empty s =>
    have htokens : (Stmt.empty s).tokens = [.mark ';'] := rfl
    rw [htokens]
    simp [BeginsStmt, endsList]

/-! ### Reading back -/

theorem head_ne_else {ts : List Token} (h : endsList ts = true) :
    ts.head? ≠ some (.word "else") := by
  intro hhead
  rw [endsList, hhead] at h
  revert h
  decide

/-- No `else` stands between the statements of a list, nor at its end. -/
theorem head_stmts_ne_else {ss : List Stmt} (hss : Stmt.areSimple ss = true) {ts : List Token}
    (hts : endsList ts = true) : (ss.flatMap Stmt.tokens ++ ts).head? ≠ some (.word "else") := by
  cases ss with
  | nil => exact head_ne_else hts
  | cons s ss =>
    simp only [Stmt.areSimple, Bool.and_eq_true] at hss
    rw [List.flatMap_cons, List.append_assoc]
    exact ((beginsStmt hss.1).append _).2.1

theorem readHeader_tokens {c : Expr} (hc : c.isSimple = true) (ts : List Token) :
    readHeader (.mark '(' :: .word c.render :: .mark ')' :: ts) = some (c.grouped, ts) := by
  rw [readHeader, readWord_simple hc]

theorem readLabel_tokens {label : Option Expr} (hlabel : label.all Expr.isSimple = true)
    (ts : List Token) :
    readLabel (labelTokens label ++ ts) = some (label.map Expr.grouped, ts) := by
  cases label with
  | none => rfl
  | some e =>
    have htokens : labelTokens (some e) ++ ts =
        .word "case" :: .word e.render :: .mark ':' :: ts := rfl
    rw [htokens, readLabel, readWord_simple hlabel, Option.map_some]

theorem readStmt_if (n : Nat) {c : Expr} (hc : c.isSimple = true) (ts : List Token) :
    readStmt (n + 1) (headerTokens "if" c ++ ts) = (do
      let (t, ts) ← readStmt n ts
      match ts with
      | .word "else" :: ts => do
        let (e, ts) ← readStmt n ts
        some (.ifElse {} c.grouped t (some e), ts)
      | ts => some (.ifElse {} c.grouped t none, ts)) := by
  have htokens : headerTokens "if" c ++ ts =
      .word "if" :: .mark '(' :: .word c.render :: .mark ')' :: ts := rfl
  rw [htokens, readStmt, readHeader_tokens hc]
  rfl

theorem readStmt_while (n : Nat) {c : Expr} (hc : c.isSimple = true) (ts : List Token) :
    readStmt (n + 1) (headerTokens "while" c ++ ts) = (do
      let (b, ts) ← readStmt n ts
      some (.whileLoop {} c.grouped b, ts)) := by
  have htokens : headerTokens "while" c ++ ts =
      .word "while" :: .mark '(' :: .word c.render :: .mark ')' :: ts := rfl
  rw [htokens, readStmt, readHeader_tokens hc]
  rfl

theorem readStmt_switch (n : Nat) {c : Expr} (hc : c.isSimple = true) (ts : List Token) :
    readStmt (n + 1) (headerTokens "switch" c ++ .mark '\x7b' :: ts) = (do
      let (arms, ts) ← readArms n ts
      some (.switch {} c.grouped arms, ts)) := by
  have htokens : headerTokens "switch" c ++ .mark '\x7b' :: ts =
      .word "switch" :: .mark '(' :: .word c.render :: .mark ')' :: .mark '\x7b' :: ts := rfl
  rw [htokens, readStmt, readHeader_tokens hc]
  rfl

/-- A list of statements ends where the next arm begins. -/
theorem endsList_arms {arms : List Arm} (harms : Stmt.armsAreSimple arms = true) (ts : List Token) :
    endsList (arms.flatMap Arm.tokens ++ .mark '\x7d' :: ts) = true := by
  cases arms with
  | nil => simp [endsList]
  | cons a arms =>
    obtain ⟨label, ss⟩ := a
    simp only [Stmt.armsAreSimple, Bool.and_eq_true] at harms
    rw [List.flatMap_cons, tokens_arm harms.1.1]
    cases label <;> simp [endsList, labelTokens]

mutual

theorem readsStmt : ∀ s : Stmt, s.isSimple = true → ReadsStmt s
  | .expr s e, h, ts => by
    refine eventually_of_succ (.of_forall fun n => ?_)
    rw [tokens_expr s h, List.cons_append, List.singleton_append,
      readStmt_expr n (not_mem_of_isSimple h), readWord_simple h]
    rfl
  | .localVar s t v init isFinal, h, ts => by
    simp only [Stmt.isSimple, Bool.and_eq_true] at h
    have hnames := List.all_eq_true.1 h.1.1
    rw [tokens_localVar s h.1.1 h.1.2 h.2]
    refine eventually_of_succ ?_
    filter_upwards [readLocal_tokens hnames v h.2 isFinal ts] with n hread
    cases isFinal with
    | true =>
      rw [if_pos rfl, List.append_assoc, List.append_assoc, List.singleton_append,
        List.cons_append, readStmt, hread]
      rfl
    | false =>
      have hbegins : BeginsTy (t.tokens plainLexicon ++ .word v :: (initTokens init ++ ts)) :=
        (beginsTy t hnames).append (by simp)
      obtain ⟨w, rest, htokens, hw, hrest⟩ := hbegins
      rw [htokens] at hread
      rw [if_neg (by simp), List.nil_append, List.append_assoc, List.cons_append, htokens,
        readStmt_local n hw hrest, hread]
      rfl
  | .block s ss, h, ts => by
    refine eventually_of_succ ?_
    have hends : endsList (.mark '\x7d' :: ts) = true := rfl
    filter_upwards [readStmts_tokens ss h hends] with n hread
    rw [tokens_block, List.cons_append, List.append_assoc, readStmt, List.singleton_append, hread]
    rfl
  | .ifElse s c t none, h, ts => by
    simp only [Stmt.isSimple, Bool.and_eq_true] at h
    refine eventually_of_succ ?_
    filter_upwards [readsStmt t h.2 ts] with n ht
    rw [tokens_ifElse_none s h.1, List.append_assoc, readStmt_if n h.1, ht, Stmt.grouped, absorb,
      Nat.add_sub_cancel]
  | .ifElse s c t (some e), h, ts => by
    simp only [Stmt.isSimple, Bool.and_eq_true] at h
    have he : ReadsStmt e := readsStmt e h.2
    rw [tokens_ifElse_some s h.1.1, List.append_assoc, List.append_assoc, List.cons_append,
      Stmt.grouped, Stmt.withElse]
    refine eventually_of_succ ?_
    split
    · -- The branch takes the `else`, so this `if` is still without one.
      rename_i hopen
      filter_upwards [readsStmt t h.1.2 _, absorb_else he ts hopen] with n ht helse
      rw [readStmt_if n h.1.1, ht, helse, absorb, Nat.add_sub_cancel]
    · rename_i hclosed
      filter_upwards [readsStmt t h.1.2 _, he ts] with n ht he
      rw [readStmt_if n h.1.1, ht, absorb_of_closed (Bool.eq_false_iff.2 hclosed), absorb,
        Nat.add_sub_cancel]
      simp only [Option.bind_eq_bind, Option.bind_some]
      rw [he]
  | .whileLoop s c b, h, ts => by
    simp only [Stmt.isSimple, Bool.and_eq_true] at h
    refine eventually_of_succ ?_
    filter_upwards [readsStmt b h.2 ts] with n hb
    rw [tokens_whileLoop s h.1, List.append_assoc, readStmt_while n h.1, hb, Stmt.grouped, absorb,
      Nat.add_sub_cancel]
  | .switch s c arms, h, ts => by
    simp only [Stmt.isSimple, Bool.and_eq_true] at h
    refine eventually_of_succ ?_
    filter_upwards [readArms_tokens arms ts h.2] with n harms
    rw [tokens_switch s h.1, List.append_assoc, List.cons_append, List.append_assoc,
      readStmt_switch n h.1, List.singleton_append, harms]
    rfl
  | .returnWith s none, h, ts => by
    have htokens : (Stmt.returnWith s none).tokens ++ ts = .word "return" :: .mark ';' :: ts := rfl
    refine eventually_of_succ (.of_forall fun n => ?_)
    rw [htokens, readStmt]
    rfl
  | .returnWith s (some e), h, ts => by
    have htokens : Token.word "return" :: ([.word e.render] ++ [.mark ';']) ++ ts =
        .word "return" :: .word e.render :: .mark ';' :: ts := rfl
    refine eventually_of_succ (.of_forall fun n => ?_)
    rw [tokens_returnWith s h, Option.map_some, Option.toList_some, htokens, readStmt, readReturn,
      readWord_simple h]
    rfl
  | .breakOut s, h, ts => by
    have htokens : (Stmt.breakOut s).tokens ++ ts = .word "break" :: .mark ';' :: ts := rfl
    refine eventually_of_succ (.of_forall fun n => ?_)
    rw [htokens, readStmt]
    rfl
  | .continueOn s, h, ts => by
    have htokens : (Stmt.continueOn s).tokens ++ ts = .word "continue" :: .mark ';' :: ts := rfl
    refine eventually_of_succ (.of_forall fun n => ?_)
    rw [htokens, readStmt]
    rfl
  | .empty s, h, ts => by
    have htokens : (Stmt.empty s).tokens ++ ts = .mark ';' :: ts := rfl
    refine eventually_of_succ (.of_forall fun n => ?_)
    rw [htokens, readStmt]
    rfl

theorem readStmts_tokens : ∀ (ss : List Stmt) {ts : List Token}, Stmt.areSimple ss = true →
    endsList ts = true →
    ∀ᶠ n in atTop, readStmts n (ss.flatMap Stmt.tokens ++ ts) = some (Stmt.groupedAll ss, ts)
  | [], ts, _, hts => by
    refine eventually_of_succ (.of_forall fun n => ?_)
    rw [List.flatMap_nil, List.nil_append, readStmts, if_pos hts]
    rfl
  | s :: ss, ts, h, hts => by
    simp only [Stmt.areSimple, Bool.and_eq_true] at h
    have hbegins := (beginsStmt h.1).append (ss.flatMap Stmt.tokens ++ ts)
    refine eventually_of_succ ?_
    filter_upwards [readsStmt s h.1 (ss.flatMap Stmt.tokens ++ ts), readStmts_tokens ss h.2 hts]
      with n hs hss
    rw [List.flatMap_cons, List.append_assoc, readStmts, if_neg (by simp [hbegins.2.2]), hs,
      absorb_of_ne (head_stmts_ne_else h.2 hts)]
    simp only [Option.bind_eq_bind, Option.bind_some, hss]
    rfl

theorem readArms_tokens : ∀ (arms : List Arm) (ts : List Token), Stmt.armsAreSimple arms = true →
    ∀ᶠ n in atTop,
      readArms n (arms.flatMap Arm.tokens ++ .mark '\x7d' :: ts) = some (Stmt.groupedArms arms, ts)
  | [], ts, _ => by
    refine eventually_of_succ (.of_forall fun n => ?_)
    rw [List.flatMap_nil, List.nil_append, readArms]
    rfl
  | .mk label ss :: arms, ts, h => by
    simp only [Stmt.armsAreSimple, Bool.and_eq_true] at h
    have hends : endsList (arms.flatMap Arm.tokens ++ .mark '\x7d' :: ts) = true :=
      endsList_arms h.2 ts
    refine eventually_of_succ ?_
    filter_upwards [readStmts_tokens ss h.1.2 hends, readArms_tokens arms ts h.2] with n hss harms
    rw [List.flatMap_cons, tokens_arm h.1.1, List.append_assoc, List.append_assoc, readArms,
      readLabel_tokens h.1.1]
    · simp only [Option.bind_eq_bind, Option.bind_some, hss, harms]
      rfl
    · intro ts' heq
      cases label <;> simp [labelTokens] at heq

end

/-! ## Texts and nesting -/

theorem grouped_simple {e : Expr} (h : e.isSimple = true) : e.grouped = e.bare := by
  cases e with
  | int s v => rfl
  | ident s n => rfl
  | _ => cases h

theorem map_grouped_simple {e : Option Expr} (h : e.all Expr.isSimple = true) :
    e.map Expr.grouped = e.map Expr.bare := by
  cases e with
  | none => rfl
  | some e => exact congrArg some (grouped_simple h)

mutual

theorem stmt_grouped_eq_bare : ∀ s : Stmt, s.isSimple = true → s.hasClearElses = true →
    s.grouped = s.bare
  | .expr _ e, h, _ => by
    rw [Stmt.grouped, Stmt.bare, grouped_simple h]
  | .localVar _ t n init isFinal, h, _ => by
    simp only [Stmt.isSimple, Bool.and_eq_true] at h
    rw [Stmt.grouped, Stmt.bare, map_grouped_simple h.2]
  | .block _ ss, h, hclear => by
    rw [Stmt.grouped, Stmt.bare, stmts_grouped_eq_bare ss h hclear]
  | .ifElse _ c t none, h, hclear => by
    simp only [Stmt.isSimple, Bool.and_eq_true] at h
    rw [Stmt.grouped, Stmt.bare, grouped_simple h.1,
      stmt_grouped_eq_bare t h.2 hclear]
  | .ifElse _ c t (some e), h, hclear => by
    simp only [Stmt.isSimple, Bool.and_eq_true] at h
    simp only [Stmt.hasClearElses, Bool.and_eq_true, Bool.not_eq_true'] at hclear
    rw [Stmt.grouped, Stmt.bare, grouped_simple h.1.1,
      stmt_grouped_eq_bare t h.1.2 hclear.1.2, stmt_grouped_eq_bare e h.2 hclear.2, Stmt.withElse,
      endsOpen_bare, hclear.1.1]
    rfl
  | .whileLoop _ c b, h, hclear => by
    simp only [Stmt.isSimple, Bool.and_eq_true] at h
    rw [Stmt.grouped, Stmt.bare, grouped_simple h.1,
      stmt_grouped_eq_bare b h.2 hclear]
  | .switch _ c arms, h, hclear => by
    simp only [Stmt.isSimple, Bool.and_eq_true] at h
    rw [Stmt.grouped, Stmt.bare, grouped_simple h.1,
      arms_grouped_eq_bare arms h.2 hclear]
  | .returnWith _ e, h, _ => by
    rw [Stmt.grouped, Stmt.bare, map_grouped_simple h]
  | .breakOut _, _, _ | .continueOn _, _, _ | .empty _, _, _ => rfl

theorem stmts_grouped_eq_bare : ∀ ss : List Stmt, Stmt.areSimple ss = true →
    Stmt.haveClearElses ss = true → Stmt.groupedAll ss = Stmt.bareAll ss
  | [], _, _ => rfl
  | s :: ss, h, hclear => by
    simp only [Stmt.areSimple, Bool.and_eq_true] at h
    simp only [Stmt.haveClearElses, Bool.and_eq_true] at hclear
    rw [Stmt.groupedAll, Stmt.bareAll, stmt_grouped_eq_bare s h.1 hclear.1,
      stmts_grouped_eq_bare ss h.2 hclear.2]

theorem arms_grouped_eq_bare : ∀ arms : List Arm, Stmt.armsAreSimple arms = true →
    Stmt.armsHaveClearElses arms = true → Stmt.groupedArms arms = Stmt.bareArms arms
  | [], _, _ => rfl
  | .mk label ss :: arms, h, hclear => by
    simp only [Stmt.armsAreSimple, Bool.and_eq_true] at h
    simp only [Stmt.armsHaveClearElses, Bool.and_eq_true] at hclear
    rw [Stmt.groupedArms, Stmt.bareArms, map_grouped_simple h.1.1,
      stmts_grouped_eq_bare ss h.1.2 hclear.1, arms_grouped_eq_bare arms h.2 hclear.2]

end

/-- Simple statements with the same words are grouped alike. -/
theorem grouped_of_words {a b : Stmt} (ha : a.isSimple = true) (hb : b.isSimple = true)
    (h : words a.render.toList = words b.render.toList) : a.grouped = b.grouped := by
  have hread : ∀ {s : Stmt}, s.isSimple = true →
      ∀ᶠ n in atTop, readStmt n (plainLexicon.scan s.render.toList) = some (s.grouped, []) := by
    intro s hs
    filter_upwards [readsStmt s hs []] with n hread
    rw [scan_render_stmt, ← List.append_nil s.tokens, hread, absorb_of_ne (by simp)]
  have ha := hread ha
  rw [← scan_words, h, scan_words] at ha
  exact congrArg Prod.fst (eq_of_eventually ha (hread hb))

/-- The texts of two simple statements differ at most in white space exactly if the statements are
the same once every `else` is given to the last `if` before it that has none. If no branch before an
`else` ends in such an `if`, then only spans can differ. -/
theorem Stmt.words_eq_iff_grouped {a b : Stmt} (ha : a.isSimple = true) (hb : b.isSimple = true) :
    (TupleAssign.words a.render.toList = TupleAssign.words b.render.toList ↔
      a.grouped = b.grouped) ∧
    (a.hasClearElses = true → b.hasClearElses = true →
      (TupleAssign.words a.render.toList = TupleAssign.words b.render.toList ↔
        a.bare = b.bare)) := by
  have hgrouped : TupleAssign.words a.render.toList = TupleAssign.words b.render.toList ↔
      a.grouped = b.grouped := by
    refine ⟨grouped_of_words ha hb, fun h => ?_⟩
    rw [words_render, words_render, ← words_grouped a, h, words_grouped b]
  refine ⟨hgrouped, fun hclear hclear' => ?_⟩
  rw [hgrouped, stmt_grouped_eq_bare a ha hclear, stmt_grouped_eq_bare b hb hclear']

/-- With braces round the inner `if` the `else` belongs to the outer one, and the words show it;
without them they do not. -/
theorem Stmt.words_eq_iff_grouped_braces :
    let var := fun n => Expr.ident {} n
    let x := Stmt.expr {} (var "x")
    let y := Stmt.expr {} (var "y")
    let inner := Stmt.ifElse {} (var "a") (.ifElse {} (var "b") x (some y)) none
    let braced := Stmt.ifElse {} (var "a") (.block {} [.ifElse {} (var "b") x none]) (some y)
    let dangling := Stmt.ifElse ⟨0, 9⟩ (var "a") (.ifElse {} (var "b") x none) (some y)
    inner.isSimple = true ∧ braced.isSimple = true ∧ dangling.isSimple = true ∧
      inner.hasClearElses = true ∧ braced.hasClearElses = true ∧
      TupleAssign.words inner.render.toList ≠ TupleAssign.words braced.render.toList ∧
      TupleAssign.words inner.render.toList = TupleAssign.words dangling.render.toList := by
  intro var x y inner braced dangling
  have hinner : inner.isSimple = true := by decide
  have hbraced : braced.isSimple = true := by decide
  have hdangling : dangling.isSimple = true := by decide
  refine ⟨hinner, hbraced, hdangling, rfl, rfl, ?_, ?_⟩
  · rw [Ne, (Stmt.words_eq_iff_grouped hinner hbraced).2 rfl rfl]
    intro h
    cases h
  · exact (Stmt.words_eq_iff_grouped hinner hdangling).1.2 rfl

/-- An `else` that belongs to the outer of two `if`s is written as if it belonged to the inner
one. -/
theorem Stmt.words_of_dangling_else :
    let var := fun n => Expr.ident {} n
    let x := Stmt.expr {} (var "x")
    let y := Stmt.expr {} (var "y")
    let inner := Stmt.ifElse {} (var "a") (.ifElse {} (var "b") x (some y)) none
    let dangling := Stmt.ifElse {} (var "a") (.ifElse {} (var "b") x none) (some y)
    inner.isSimple = true ∧ dangling.isSimple = true ∧
      inner.render = "if (a)\n    if (b)\n        x;\n    else\n        y;\n" ∧
      dangling.render = "if (a)\n    if (b)\n        x;\nelse\n    y;\n" ∧
      TupleAssign.words inner.render.toList = TupleAssign.words dangling.render.toList ∧
      inner.bare ≠ dangling.bare := by
  intro var x y inner dangling
  refine ⟨by decide, by decide, by decide, by decide, ?_, fun h => by cases h⟩
  rw [words_render, words_render, words_ifElse_none, words_ifElse_some, words_ifElse_some,
    words_ifElse_none, List.append_assoc]

end TupleAssign.Tree
