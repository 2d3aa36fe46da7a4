import TupleAssign.Proofs.ExprTokens
import TupleAssign.Proofs.Grouping
/-!
# Expressions by their text

The text of an expression is read back from its tokens (`readExpr`), and reading gives the
expression as its text groups it (`Expr.grouped`). So two expressions have the same text exactly if
they are grouped alike.

A unary operator is read before the suffixes of its operand. Reading back is therefore stated
through the reading of what follows (`Reads.operand`), where suffixes are taken below the unary
operators (`resume`).
-/

namespace TupleAssign.Tree

open Filter (atTop)

/-! ## Reading -/

/-- What a word stands for that no argument list follows. -/
def readWord (w : String) : Expr :=
  if w.toList.head?.any Char.isDigit then .int {} (Nat.ofDigitChars 10 w.toList 0)
  else if w = "true" then .bool {} true
  else if w = "false" then .bool {} false
  else if w = "null" then .null {}
  else if w = "this" then .self {}
  else .ident {} w

def readBinaryOp : List Token → Option (BinaryOp × List Token)
  | .mark '+' :: ts => some (.add, ts)
  | .mark '-' :: ts => some (.sub, ts)
  | .mark '*' :: ts => some (.mul, ts)
  | .mark '/' :: ts => some (.div, ts)
  | .mark '%' :: ts => some (.rem, ts)
  | .mark '=' :: .mark '=' :: ts => some (.eq, ts)
  | .mark '!' :: .mark '=' :: ts => some (.notEq, ts)
  | .mark '<' :: .mark '=' :: ts => some (.ltEq, ts)
  | .mark '<' :: ts => some (.lt, ts)
  | .mark '>' :: .mark '=' :: ts => some (.gtEq, ts)
  | .mark '>' :: ts => some (.gt, ts)
  | .mark '&' :: .mark '&' :: ts => some (.and, ts)
  | .mark '|' :: .mark '|' :: ts => some (.or, ts)
  | _ => none

mutual

/-- Reads an expression off the beginning of a token list, to a given depth. -/
def readExpr : Nat → List Token → Option (Expr × List Token)
  | 0, _ => none
  | n + 1, ts => do
    let (e, ts) ← readValue n ts
    match ts with
    | .mark '=' :: ts => do
      let (v, ts) ← readExpr n ts
      some (.assign {} e v, ts)
    | ts => some (e, ts)

/-- Reads an expression that is no assignment. -/
def readValue : Nat → List Token → Option (Expr × List Token)
  | 0, _ => none
  | n + 1, ts => do
    let (a, ts) ← readOperand n ts
    match readBinaryOp ts with
    | some (op, ts) => do
      let (b, ts) ← readOperand n ts
      some (.binary {} op a b, ts)
    | none =>
      match ts with
      | .mark '?' :: ts => do
        let (b, ts) ← readOperand n ts
        match ts with
        | .mark ':' :: ts => do
          let (c, ts) ← readOperand n ts
          some (.conditional {} a b c, ts)
        | _ => none
      | ts => some (a, ts)

def readOperand : Nat → List Token → Option (Expr × List Token)
  | 0, _ => none
  | n + 1, ts =>
    match ts with
    | .mark '-' :: ts => do
      let (e, ts) ← readOperand n ts
      some (.unary {} .neg e, ts)
    | .mark '!' :: ts => do
      let (e, ts) ← readOperand n ts
      some (.unary {} .not e, ts)
    | .mark '(' :: ts => do
      let (e, ts) ← readExpr n ts
      match ts with
      | .mark ')' :: ts => readSuffixes n e ts
      | _ => none
    | .text s :: ts => readSuffixes n (.str {} s) ts
    | .word "new" :: ts => do
      let (t, ts) ← readTy n ts
      match ts with
      | .mark '(' :: ts => do
        let (args, ts) ← readArgs n ts
        readSuffixes n (.create {} t args) ts
      | _ => none
    | .word w :: .mark '(' :: ts => do
      let (args, ts) ← readArgs n ts
      readSuffixes n (.call {} none w args) ts
    | .word w :: ts => readSuffixes n (readWord w) ts
    | _ => none

/-- What stands behind an operand is taken from left to right. -/
def readSuffixes : Nat → Expr → List Token → Option (Expr × List Token)
  | 0, _, _ => none
  | n + 1, e, ts =>
    match ts with
    | .mark '.' :: .word m :: .mark '(' :: ts => do
      let (args, ts) ← readArgs n ts
      readSuffixes n (.call {} (some e) m args) ts
    | .mark '.' :: .word m :: ts => readSuffixes n (.field {} e m) ts
    | .mark '[' :: ts => do
      let (i, ts) ← readExpr n ts
      match ts with
      | .mark ']' :: ts => readSuffixes n (.index {} e i) ts
      | _ => none
    | ts => some (e, ts)

/-- Reads arguments up to the mark that closes their list. -/
def readArgs : Nat → List Token → Option (List Expr × List Token)
  | 0, _ => none
  | n + 1, ts =>
    match ts with
    | .mark ')' :: ts => some ([], ts)
    | ts => do
      let (e, ts) ← readExpr n ts
      match ts with
      | .mark ',' :: ts => do
        let (es, ts) ← readArgs n ts
        some (e :: es, ts)
      | .mark ')' :: ts => some ([e], ts)
      | _ => none

end

/-! ### One token ahead -/

/-- No suffix and no argument list goes on. -/
def EndsOperand (ts : List Token) : Prop :=
  ts.head? ≠ some (.mark '(') ∧ ts.head? ≠ some (.mark '.') ∧ ts.head? ≠ some (.mark '[')

/-- Nothing goes on but an assignment. -/
def EndsValue : List Token → Prop
  | [] => True
  | .mark '=' :: ts => ts.head? ≠ some (.mark '=')
  | t :: _ => t ∈ [Token.mark ')', .mark ']', .mark ',']

def EndsExpr : List Token → Prop
  | [] => True
  | t :: _ => t ∈ [Token.mark ')', .mark ']', .mark ',']

theorem EndsExpr.value {ts : List Token} (h : EndsExpr ts) : EndsValue ts := by
  unfold EndsValue
  split
  · trivial
  · simp [EndsExpr] at h
  · exact h

theorem EndsValue.operand {ts : List Token} (h : EndsValue ts) : EndsOperand ts := by
  unfold EndsValue at h
  split at h
  · simp [EndsOperand]
  · simp [EndsOperand]
  · rename_i t ts _
    simp only [List.mem_cons, List.not_mem_nil, or_false] at h
    rcases h with rfl | rfl | rfl <;> simp [EndsOperand]

theorem readSuffixes_of_ends (n : Nat) {e : Expr} {ts : List Token} (h : EndsOperand ts) :
    readSuffixes (n + 1) e ts = some (e, ts) := by
  rw [readSuffixes]
  · rintro n ts' rfl
    simp [EndsOperand] at h
  · rintro n ts' rfl
    simp [EndsOperand] at h
  · rintro ts' rfl
    simp [EndsOperand] at h

theorem readBinaryOp_of_ends {ts : List Token} (h : EndsValue ts) : readBinaryOp ts = none := by
  unfold EndsValue at h
  split at h
  · rfl
  · rename_i ts
    cases ts with
    | nil => rfl
    | cons t ts =>
      unfold readBinaryOp
      split <;> simp_all
  · rename_i t ts _
    simp only [List.mem_cons, List.not_mem_nil, or_false] at h
    rcases h with rfl | rfl | rfl <;> rfl

theorem readBinaryOp_symbol (op : BinaryOp) {ts : List Token} (hts : ts.head? ≠ some (.mark '=')) :
    readBinaryOp (op.symbol.toList.map .mark ++ ts) = some (op, ts) := by
  -- Behind `<` and `>` a further mark would make another operator.
  have hne : ∀ ts', ts ≠ .mark '=' :: ts' := by
    rintro ts' rfl
    simp at hts
  cases op <;> simp [BinaryOp.symbol, readBinaryOp]

/-- An expression begins with a word, a text, an operator in front of its operand or an opening
parenthesis. -/
def BeginsExpr (ts : List Token) : Prop :=
  ts ≠ [] ∧ ts.head? ≠ some (.mark '=') ∧ ts.head? ≠ some (.mark ')')

theorem BeginsExpr.append {ts : List Token} (h : BeginsExpr ts) (ts' : List Token) :
    BeginsExpr (ts ++ ts') := by
  cases ts with
  | nil => exact absurd rfl h.1
  | cons t ts => simpa [BeginsExpr] using h

theorem beginsExpr_operand {e : Expr} (h : BeginsExpr e.tokens) :
    BeginsExpr (e.operand e.tokens) := by
  unfold Expr.operand
  split
  · simp [BeginsExpr]
  · exact h

theorem beginsExpr : ∀ e : Expr, BeginsExpr e.tokens
  | .int _ _ | .bool _ _ | .str _ _ | .null _ | .self _ | .ident _ _ | .create _ _ _
  | .call _ none _ _ => by simp [Expr.tokens, BeginsExpr]
  | .field _ r _ | .index _ r _ | .call _ (some r) _ _ => by
    rw [Expr.tokens]
    exact (beginsExpr_operand (beginsExpr r)).append _
  | .unary _ op _ => by cases op <;> simp [Expr.tokens, BeginsExpr, UnaryOp.symbol]
  | .binary _ _ l _ => by
    rw [Expr.tokens]
    exact (beginsExpr_operand (beginsExpr l)).append _
  | .conditional _ c _ _ => by
    rw [Expr.tokens]
    exact (beginsExpr_operand (beginsExpr c)).append _
  | .assign _ t _ => by
    rw [Expr.tokens]
    exact (beginsExpr t).append _

/-! ### Words -/

theorem isCompound_readWord (w : String) : (readWord w).isCompound = false := by
  unfold readWord
  repeat' split
  all_goals rfl

theorem isUnary_readWord (w : String) : (readWord w).isUnary = false := by
  unfold readWord
  repeat' split
  all_goals rfl

theorem toList_toString (n : Nat) : (toString n).toList = Nat.toDigits 10 n := by
  rw [Nat.toString_eq_ofList_toDigits, String.toList_ofList]

theorem head_toString (n : Nat) : (toString n).toList.head?.any Char.isDigit = true := by
  rw [toList_toString]
  obtain ⟨c, cs, hcs⟩ := List.exists_cons_of_ne_nil (Nat.toDigits_ne_nil (n := n) (b := 10))
  have hc := Nat.isDigit_of_mem_toDigits (by decide) (by decide) (hcs ▸ List.mem_cons_self)
  simpa [hcs] using hc

theorem readWord_number (n : Nat) : readWord (toString n) = .int {} n := by
  rw [readWord, if_pos (head_toString n), toList_toString, Nat.ofDigitChars_ten_toDigits]

theorem toString_ne {w : String} (hw : w.toList.head?.any Char.isDigit = false) (n : Nat) :
    toString n ≠ w := by
  intro h
  have hdigit := head_toString n
  rw [h, hw] at hdigit
  cases hdigit

theorem ne_of_isIdentifier {w v : String} (hw : isIdentifier w = true) (hv : v ∈ reservedWords) :
    w ≠ v := by
  rintro rfl
  simp [isIdentifier, hv] at hw

theorem readWord_name {w : String} (hw : isIdentifier w = true) : readWord w = .ident {} w := by
  have hdigit : w.toList.head?.any Char.isDigit = false := by
    simp only [isIdentifier, Bool.and_eq_true] at hw
    cases hhead : w.toList.head? with
    | none => rfl
    | some c => simpa [hhead] using hw.1.1
  have hne : ∀ v ∈ reservedWords, w ≠ v := fun v => ne_of_isIdentifier hw
  simp [readWord, hdigit, hne "true" (by decide), hne "false" (by decide), hne "null" (by decide),
    hne "this" (by decide)]

/-! ### Reading back -/

/-- What reading makes of tokens behind an expression: suffixes go below the unary operators. -/
def resume (n : Nat) : Expr → List Token → Option (Expr × List Token)
  | .unary s op e, ts => (resume n e ts).map fun (e, ts) => (.unary s op e, ts)
  | e, ts => readSuffixes n e ts

theorem resume_of_not_unary {e : Expr} (h : e.isUnary = false) (n : Nat) (ts : List Token) :
    resume n e ts = readSuffixes n e ts := by
  cases e <;> first | rfl | simp [Expr.isUnary] at h

theorem resume_of_ends {ts : List Token} (hts : EndsOperand ts) (n : Nat) (e : Expr) :
    resume (n + 1) e ts = some (e, ts) := by
  induction e, ts using resume.induct with
  | case1 ts s op e ih => rw [resume, ih hts, Option.map_some]
  | case2 e ts he => rw [resume_of_not_unary (isUnary_eq_false he), readSuffixes_of_ends n hts]

/-- What is read behind a unary operator settles what is read behind its operand. -/
theorem exists_of_resume_unary {s : Span} {op : UnaryOp} {e : Expr} {ts : List Token}
    {r : Expr × List Token} (h : ∀ᶠ n in atTop, resume n (.unary s op e) ts = some r) :
    ∃ e' ts', r = (.unary s op e', ts') ∧ ∀ᶠ n in atTop, resume n e ts = some (e', ts') := by
  simp only [resume, Option.map_eq_some_iff] at h
  obtain ⟨n, ⟨e', ts'⟩, -, rfl⟩ := h.exists
  refine ⟨e', ts', rfl, ?_⟩
  filter_upwards [h] with n hn
  obtain ⟨⟨e'', ts''⟩, hread, heq⟩ := hn
  cases heq
  exact hread

/-- Reading `k` off the tokens `ts` leaves `ts'`. -/
structure Takes (k : Expr → Expr) (ts ts' : List Token) : Prop where
  readSuffixes : ∀ᶠ n in atTop, ∀ e,
    readSuffixes (n + 1) e ts = Tree.readSuffixes n (k e) ts'
  isUnary : ∀ e, (k e).isUnary = false

theorem Takes.resume_inside {k : Expr → Expr} {ts ts' : List Token} (hk : Takes k ts ts')
    {e : Expr} {r : Expr × List Token} (h : ∀ᶠ n in atTop, resume n (e.inside k) ts' = some r) :
    ∀ᶠ n in atTop, resume n e ts = some r := by
  refine eventually_of_succ ?_
  filter_upwards [h, hk.readSuffixes] with n hn hsuffixes
  rw [← hn]
  clear h hn
  induction e using Expr.inside.induct with
  | case1 s op e ih => rw [Expr.inside, resume, resume, ih]
  | case2 e he =>
    have hunary := isUnary_eq_false he
    rw [inside_of_not_unary hunary, resume_of_not_unary hunary, resume_of_not_unary (hk.isUnary e),
      hsuffixes]

/-- The expression is read back from its tokens, grouped as its text is. -/
structure Reads (e : Expr) : Prop where
  operand : ∀ ts r, ts.head? ≠ some (.mark '(') →
    (∀ᶠ n in atTop, resume n e.grouped ts = some r) →
    ∀ᶠ n in atTop, readOperand n (e.operand e.tokens ++ ts) = some r
  value : e.isAssign = false → ∀ ts, EndsValue ts →
    ∀ᶠ n in atTop, readValue n (e.tokens ++ ts) = some (e.grouped, ts)
  expr : ∀ ts, EndsExpr ts →
    ∀ᶠ n in atTop, readExpr n (e.tokens ++ ts) = some (e.grouped, ts)

theorem readValue_of_readOperand {ts ts' : List Token} {e : Expr}
    (h : ∀ᶠ n in atTop, readOperand n ts = some (e, ts')) (hts' : EndsValue ts') :
    ∀ᶠ n in atTop, readValue n ts = some (e, ts') := by
  refine eventually_of_succ ?_
  filter_upwards [h] with n hread
  rw [readValue, hread]
  simp only [Option.bind_eq_bind, Option.bind_some, readBinaryOp_of_ends hts']
  split
  · simp [EndsValue] at hts'
  · rfl

theorem readExpr_of_readValue {ts ts' : List Token} {e : Expr}
    (h : ∀ᶠ n in atTop, readValue n ts = some (e, ts')) (hts' : EndsExpr ts') :
    ∀ᶠ n in atTop, readExpr n ts = some (e, ts') := by
  refine eventually_of_succ ?_
  filter_upwards [h] with n hread
  rw [readExpr, hread]
  simp only [Option.bind_eq_bind, Option.bind_some]
  split
  · simp [EndsExpr] at hts'
  · rfl

theorem eventually_resume {ts : List Token} (hts : EndsOperand ts) (e : Expr) :
    ∀ᶠ n in atTop, resume n e ts = some (e, ts) :=
  eventually_of_succ (.of_forall fun n => resume_of_ends hts n e)

namespace Reads

variable {e : Expr}

theorem of_operand (hsimple : e.isCompound = false)
    (h : ∀ ts r, ts.head? ≠ some (.mark '(') →
      (∀ᶠ n in atTop, resume n e.grouped ts = some r) →
      ∀ᶠ n in atTop, readOperand n (e.tokens ++ ts) = some r) :
    Reads e := by
  have hvalue : ∀ ts, EndsValue ts →
      ∀ᶠ n in atTop, readValue n (e.tokens ++ ts) = some (e.grouped, ts) := by
    intro ts hts
    exact readValue_of_readOperand (h ts _ hts.operand.1 (eventually_resume hts.operand _)) hts
  refine ⟨fun ts r hts hr => ?_, fun _ => hvalue, fun ts hts => ?_⟩
  · rw [Expr.operand, hsimple]
    exact h ts r hts hr
  · exact readExpr_of_readValue (hvalue ts hts.value) hts

theorem of_expr (hcompound : e.isCompound = true)
    (hvalue : e.isAssign = false → ∀ ts, EndsValue ts →
      ∀ᶠ n in atTop, readValue n (e.tokens ++ ts) = some (e.grouped, ts))
    (hexpr : ∀ ts, EndsExpr ts →
      ∀ᶠ n in atTop, readExpr n (e.tokens ++ ts) = some (e.grouped, ts)) :
    Reads e := by
  refine ⟨fun ts r _ hr => ?_, hvalue, hexpr⟩
  have hunary : e.grouped.isUnary = false :=
    isUnary_of_isCompound ((isCompound_grouped e).trans hcompound)
  have htokens : .mark '(' :: (e.tokens ++ [.mark ')']) ++ ts =
      Token.mark '(' :: (e.tokens ++ .mark ')' :: ts) := by simp
  rw [Expr.operand, if_pos hcompound, htokens]
  refine eventually_of_succ ?_
  filter_upwards [hexpr (.mark ')' :: ts) (by simp [EndsExpr]), hr] with n hread hr
  rw [readOperand, hread, ← hr, resume_of_not_unary hunary]
  rfl

theorem of_value (hcompound : e.isCompound = true)
    (h : ∀ ts, EndsValue ts →
      ∀ᶠ n in atTop, readValue n (e.tokens ++ ts) = some (e.grouped, ts)) : Reads e :=
  of_expr hcompound (fun _ => h) fun ts hts => readExpr_of_readValue (h ts hts.value) hts

/-- An operand with nothing behind it that could belong to it. -/
theorem readOperand_eq (h : Reads e) {ts : List Token} (hts : EndsOperand ts) :
    ∀ᶠ n in atTop, readOperand n (e.operand e.tokens ++ ts) = some (e.grouped, ts) :=
  h.operand ts _ hts.1 (eventually_resume hts _)

end Reads

theorem readSuffixes_field (n : Nat) (e : Expr) (m : String) {ts : List Token}
    (hts : ts.head? ≠ some (.mark '(')) :
    readSuffixes (n + 1) e (.mark '.' :: .word m :: ts) = readSuffixes n (.field {} e m) ts := by
  rw [readSuffixes]
  rintro ts' rfl
  simp at hts

theorem readOperand_word {w : String} (hw : w ≠ "new") (n : Nat) {ts : List Token}
    (hts : ts.head? ≠ some (.mark '(')) :
    readOperand (n + 1) (.word w :: ts) = readSuffixes n (readWord w) ts := by
  rw [readOperand]
  · exact hw
  · rintro ts' rfl
    simp at hts

theorem readOperand_unary (op : UnaryOp) (n : Nat) (ts : List Token) :
    readOperand (n + 1) (op.symbol.toList.map .mark ++ ts) =
      (readOperand n ts).map fun (e, ts) => (.unary {} op e, ts) := by
  cases op with
  | neg =>
    have htokens : UnaryOp.neg.symbol.toList.map Token.mark ++ ts = .mark '-' :: ts := rfl
    rw [htokens, readOperand]
    cases readOperand n ts <;> rfl
  | not =>
    have htokens : UnaryOp.not.symbol.toList.map Token.mark ++ ts = .mark '!' :: ts := rfl
    rw [htokens, readOperand]
    cases readOperand n ts <;> rfl

theorem readArgs_cons (n : Nat) {e : Expr} (ts : List Token) :
    readArgs (n + 1) (e.tokens ++ ts) = (do
      let (e, ts) ← readExpr n (e.tokens ++ ts)
      match ts with
      | .mark ',' :: ts => do
        let (es, ts) ← readArgs n ts
        some (e :: es, ts)
      | .mark ')' :: ts => some ([e], ts)
      | _ => none) := by
  rw [readArgs]
  intro ts' hts
  have hbegins := (beginsExpr e).append ts
  rw [hts] at hbegins
  simp [BeginsExpr] at hbegins

theorem endsOperand_symbol (op : BinaryOp) (ts : List Token) :
    EndsOperand (op.symbol.toList.map .mark ++ ts) := by
  cases op <;> simp [EndsOperand, BinaryOp.symbol]

theorem Reads.of_word {e : Expr} {w : String} (htokens : e.tokens = [.word w])
    (hword : e.grouped = readWord w) (hw : w ≠ "new") : Reads e := by
  have hsimple : e.isCompound = false := by
    rw [← isCompound_grouped, hword, isCompound_readWord]
  refine .of_operand hsimple fun ts r hts hr => eventually_of_succ ?_
  filter_upwards [hr] with n hr
  rw [htokens, List.singleton_append, readOperand_word hw n hts, ← hr, hword,
    resume_of_not_unary (isUnary_readWord w)]

mutual

theorem reads : ∀ e : Expr, e.isLegible = true → Reads e
  | .int s v, h => by
    simp only [Expr.isLegible, decide_eq_true_eq] at h
    obtain ⟨n, rfl⟩ := Int.eq_ofNat_of_zero_le h
    exact .of_word rfl (readWord_number n).symm (toString_ne (by decide) n)
  | .bool s v, h => by
    cases v
    · exact .of_word (w := "false") rfl rfl (by decide)
    · exact .of_word (w := "true") rfl rfl (by decide)
  | .str s v, h => by
    refine .of_operand rfl fun ts res hts hres => eventually_of_succ ?_
    filter_upwards [hres] with n hres
    rw [Expr.tokens, List.singleton_append, readOperand, ← hres, Expr.grouped,
      resume_of_not_unary rfl]
  | .null s, h => .of_word (w := "null") rfl rfl (by decide)
  | .self s, h => .of_word (w := "this") rfl rfl (by decide)
  | .ident s n, h => .of_word rfl (readWord_name h).symm (ne_of_isIdentifier h (by decide))
  | .field s r m, h => by
    simp only [Expr.isLegible, Bool.and_eq_true] at h
    refine .of_operand rfl fun ts res hts hres => ?_
    have htakes : Takes (fun r => .field {} r m) (.mark '.' :: .word m :: ts) ts :=
      ⟨.of_forall fun n e => readSuffixes_field n e m hts, fun _ => rfl⟩
    rw [Expr.tokens, List.append_assoc]
    exact (reads r h.1).operand _ res (by simp) (htakes.resume_inside hres)
  | .index s r i, h => by
    simp only [Expr.isLegible, Bool.and_eq_true] at h
    refine .of_operand rfl fun ts res hts hres => ?_
    have htakes : Takes (fun r => .index {} r i.grouped)
        (.mark '[' :: (i.tokens ++ .mark ']' :: ts)) ts := by
      refine ⟨?_, fun _ => rfl⟩
      filter_upwards [(reads i h.2).expr (.mark ']' :: ts) (by simp [EndsExpr])] with n hread e
      rw [readSuffixes, hread]
      rfl
    have hread := (reads r h.1).operand _ res (by simp) (htakes.resume_inside hres)
    simpa [Expr.tokens] using hread
  | .call s none m args, h => by
    simp only [Expr.isLegible, Bool.and_eq_true] at h
    refine .of_operand rfl fun ts res hts hres => eventually_of_succ ?_
    filter_upwards [readArgs_tokens args ts h.2, hres] with n hargs hres
    rw [Expr.tokens, List.cons_append, List.cons_append, readOperand, hargs]
    · rw [← hres, Expr.grouped, resume_of_not_unary rfl]
      rfl
    · exact ne_of_isIdentifier h.1 (by decide)
  | .call s (some r) m args, h => by
    simp only [Expr.isLegible, Bool.and_eq_true] at h
    refine .of_operand rfl fun ts res hts hres => ?_
    have htakes : Takes (fun r => .call {} (some r) m (Expr.groupedAll args))
        (.mark '.' :: .word m :: .mark '(' :: (Expr.argTokens args ++ ts)) ts := by
      refine ⟨?_, fun _ => rfl⟩
      filter_upwards [readArgs_tokens args ts h.2] with n hargs e
      rw [readSuffixes, hargs]
      rfl
    have hread := (reads r h.1.1).operand _ res (by simp) (htakes.resume_inside hres)
    simpa [Expr.tokens] using hread
  | .create s t args, h => by
    simp only [Expr.isLegible, Bool.and_eq_true, List.all_eq_true] at h
    have hnames : ∀ n ∈ t.names, sourceLexicon.Legible n :=
      fun n hn => sourceLexicon_cutsSource.legible (h.1 n hn)
    refine .of_operand rfl fun ts res hts hres => eventually_of_succ ?_
    have hends : EndsName (.mark '(' :: (Expr.argTokens args ++ ts)) := by simp [EndsName]
    filter_upwards [readTy_tokens hnames hends (by simp), readArgs_tokens args ts h.2, hres]
      with n hty hargs hres
    rw [Expr.tokens, List.cons_append, List.append_assoc, readOperand, List.cons_append, hty]
    simp only [hargs, Option.bind_eq_bind, Option.bind_some]
    rw [← hres, Expr.grouped, resume_of_not_unary rfl]
  | .unary s op e, h => by
    refine .of_operand rfl fun ts res hts hres => ?_
    obtain ⟨e', ts', rfl, hinner⟩ := exists_of_resume_unary hres
    refine eventually_of_succ ?_
    filter_upwards [(reads e h).operand ts _ hts hinner] with n hread
    rw [Expr.tokens, List.append_assoc, readOperand_unary, hread]
    rfl
  | .binary s op l r, h => by
    simp only [Expr.isLegible, Bool.and_eq_true] at h
    refine .of_value rfl fun ts hts => eventually_of_succ ?_
    have hbegins := (beginsExpr_operand (beginsExpr r)).append ts
    filter_upwards [(reads l h.1).readOperand_eq (endsOperand_symbol op (r.operand r.tokens ++ ts)),
      (reads r h.2).readOperand_eq hts.operand] with n hl hr
    rw [Expr.tokens, List.append_assoc, List.append_assoc, readValue, hl]
    simp only [Option.bind_eq_bind, Option.bind_some, readBinaryOp_symbol op hbegins.2.1, hr]
    rfl
  | .conditional s c t e, h => by
    simp only [Expr.isLegible, Bool.and_eq_true] at h
    refine .of_value rfl fun ts hts => eventually_of_succ ?_
    have htokens : (Expr.conditional s c t e).tokens ++ ts = c.operand c.tokens ++
        .mark '?' :: (t.operand t.tokens ++ .mark ':' :: (e.operand e.tokens ++ ts)) := by
      simp [Expr.tokens]
    have ht : EndsOperand (.mark ':' :: (e.operand e.tokens ++ ts)) := by simp [EndsOperand]
    have hc : EndsOperand (.mark '?' :: (t.operand t.tokens ++ .mark ':' ::
        (e.operand e.tokens ++ ts))) := by simp [EndsOperand]
    filter_upwards [(reads c h.1.1).readOperand_eq hc, (reads t h.1.2).readOperand_eq ht,
      (reads e h.2).readOperand_eq hts.operand] with n hc ht he
    rw [htokens, readValue, hc]
    simp only [Option.bind_eq_bind, Option.bind_some, readBinaryOp, ht, he]
    rfl
  | .assign s t v, h => by
    simp only [Expr.isLegible, Bool.and_eq_true, Bool.not_eq_true'] at h
    refine .of_expr rfl (fun hassign => by cases hassign) fun ts hts => eventually_of_succ ?_
    -- The value does not begin with `=`, so the mark before it is no comparison.
    have hends : EndsValue (.mark '=' :: (v.tokens ++ ts)) := ((beginsExpr v).append ts).2.1
    filter_upwards [(reads t h.1.2).value h.1.1 _ hends, (reads v h.2).expr ts hts] with n ht hv
    rw [Expr.tokens, List.append_assoc, List.cons_append, readExpr, ht]
    simp only [Option.bind_eq_bind, Option.bind_some, hv]
    rfl

theorem readArgs_tokens : ∀ (es : List Expr) (ts : List Token), Expr.isLegibleAll es = true →
    ∀ᶠ n in atTop, readArgs n (Expr.argTokens es ++ ts) = some (Expr.groupedAll es, ts)
  | [], ts, _ => by
    refine eventually_of_succ (.of_forall fun n => ?_)
    rw [Expr.argTokens, List.singleton_append, readArgs, Expr.groupedAll]
  | e :: es, ts, h => by
    simp only [Expr.isLegibleAll, Bool.and_eq_true] at h
    rw [Expr.argTokens, List.append_assoc]
    exact readArgs_further es ts (reads e h.1) h.2

theorem readArgs_further : ∀ (es : List Expr) {e : Expr} (ts : List Token), Reads e →
    Expr.isLegibleAll es = true →
    ∀ᶠ n in atTop, readArgs n (e.tokens ++ (Expr.furtherTokens es ++ ts)) =
      some (e.grouped :: Expr.groupedAll es, ts)
  | [], e, ts, he, _ => by
    refine eventually_of_succ ?_
    filter_upwards [he.expr (Expr.furtherTokens [] ++ ts) (by simp [EndsExpr, Expr.furtherTokens])]
      with n he
    rw [readArgs_cons, he]
    rfl
  | e' :: es, e, ts, he, h => by
    simp only [Expr.isLegibleAll, Bool.and_eq_true] at h
    have htokens : Expr.furtherTokens (e' :: es) ++ ts =
        .mark ',' :: (e'.tokens ++ (Expr.furtherTokens es ++ ts)) := by
      simp [Expr.furtherTokens]
    refine eventually_of_succ ?_
    filter_upwards [he.expr (.mark ',' :: (e'.tokens ++ (Expr.furtherTokens es ++ ts)))
        (by simp [EndsExpr]), readArgs_further es ts (reads e' h.1) h.2] with n he hfurther
    rw [htokens, readArgs_cons, he]
    simp only [Option.bind_eq_bind, Option.bind_some, hfurther]
    rfl

end

/-! ## Texts and groupings -/

/-- Expressions with the same text are grouped alike. -/
theorem grouped_of_render {a b : Expr} (ha : a.isLegible = true) (hb : b.isLegible = true)
    (h : a.render = b.render) : a.grouped = b.grouped := by
  have hread : ∀ {e : Expr}, e.isLegible = true →
      ∀ᶠ n in atTop, readExpr n (sourceLexicon.scan e.render.toList) = some (e.grouped, []) := by
    intro e he
    rw [scan_render he, ← List.append_nil e.tokens]
    exact (reads e he).expr [] trivial
  exact congrArg Prod.fst (eq_of_eventually (hread ha) (h ▸ hread hb))

/-- Two expressions have the same text exactly if they are the same once every unary operator on a
receiver is taken outside. If no receiver is a unary expression, then only spans can differ. -/
theorem Expr.render_eq_iff_grouped {a b : Expr} (ha : a.isLegible = true)
    (hb : b.isLegible = true) :
    (a.render = b.render ↔ a.grouped = b.grouped) ∧
    (a.hasPlainReceivers = true → b.hasPlainReceivers = true →
      (a.render = b.render ↔ a.bare = b.bare)) := by
  have hgrouped : a.render = b.render ↔ a.grouped = b.grouped := by
    refine ⟨grouped_of_render ha hb, fun h => ?_⟩
    rw [← render_grouped a, h, render_grouped b]
  refine ⟨hgrouped, fun hplain hplain' => ?_⟩
  rw [hgrouped, grouped_eq_bare a hplain, grouped_eq_bare b hplain']

/-- `(a + b).f` and `a + b.f`, which no grouping makes equal, beside `-x.f` in its two readings. -/
theorem Expr.render_eq_iff_grouped_sum :
    let var := fun n => Expr.ident {} n
    let sum := Expr.binary {} .add (var "a") (var "b")
    let outer := Expr.field {} sum "f"
    let inner := Expr.binary {} .add (var "a") (.field {} (var "b") "f")
    let negated := Expr.field {} (.unary {} .neg (var "x")) "f"
    let negation := Expr.unary ⟨0, 4⟩ .neg (.field {} (var "x") "f")
    outer.isLegible = true ∧ inner.isLegible = true ∧ outer.hasPlainReceivers = true ∧
      inner.hasPlainReceivers = true ∧ outer.render ≠ inner.render ∧
      negated.isLegible = true ∧ negation.isLegible = true ∧ negated.render = negation.render := by
  intro var sum outer inner negated negation
  have houter : outer.isLegible = true := by decide
  have hinner : inner.isLegible = true := by decide
  have hnegated : negated.isLegible = true := by decide
  have hnegation : negation.isLegible = true := by decide
  refine ⟨houter, hinner, rfl, rfl, ?_, hnegated, hnegation, ?_⟩
  · rw [Ne, (Expr.render_eq_iff_grouped houter hinner).2 rfl rfl]
    intro h
    cases h
  · exact (Expr.render_eq_iff_grouped hnegated hnegation).1.2 rfl

/-- A unary receiver has no parentheses, so its text is that of another expression. -/
theorem Expr.render_field_of_negation :
    let negated := Expr.field {} (.unary {} .neg (.ident {} "x")) "f"
    let negation := Expr.unary {} .neg (.field {} (.ident {} "x") "f")
    negated.isLegible = true ∧ negation.isLegible = true ∧ negated.render = "-x.f" ∧
      negation.render = "-x.f" ∧ negated.bare ≠ negation.bare := by
  refine ⟨by decide, by decide, by decide, by decide, ?_⟩
  intro h
  cases h

end TupleAssign.Tree
