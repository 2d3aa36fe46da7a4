import Mathlib.Data.List.Forall2
import Mathlib.Logic.Function.Basic
import TupleAssign.Unpacking
/-!
# The meaning of statements

A big-step semantics over stores that map names to values. The operators, calls and `new` are read
by an interpretation, which may be any; an expression that has a receiver, a field access or an
assignment in it has no value. An unpacking stores all its values from left to right after all of
them have been evaluated.

The meaning of a statement is made from those of its parts. So what is shown of the ways in which
meanings are put together (`Sim.seq`, `Sim.loop`, …) holds of all statements.
-/

namespace TupleAssign.Semantics

open TupleAssign.Tree (Ty Expr Stmt Arm Reading)

/-! ## Values -/

/-- What operators and the like do to values. -/
structure Interp (V : Type) where
  int : Int → V
  bool : Bool → V
  str : String → V
  null : V
  self : V
  index : V → V → V
  call : String → List V → V
  create : Ty → List V → V
  unary : UnaryOp → V → V
  binary : BinaryOp → V → V → V
  /-- Whether a value counts as true in a condition. -/
  holds : V → Bool
  /-- Whether the value of a selector goes to an arm with this label. -/
  selects : V → V → Bool

abbrev Env (V : Type) := String → V

/-- How a statement ends. -/
inductive Signal (V : Type) where
  | normal
  | breaks
  | continues
  | returns (value : Option V)

variable {V : Type} (I : Interp V)

mutual

/-- The value of an expression. -/
def eval (σ : Env V) : Expr → Option V
  | .int _ n => some (I.int n)
  | .bool _ b => some (I.bool b)
  | .str _ s => some (I.str s)
  | .null _ => some I.null
  | .self _ => some I.self
  | .ident _ x => some (σ x)
  | .field _ _ _ => none
  | .index _ e i => do return I.index (← eval σ e) (← eval σ i)
  | .call _ none f args => do return I.call f (← evalAll σ args)
  | .call _ (some _) _ _ => none
  | .create _ t args => do return I.create t (← evalAll σ args)
  | .unary _ op e => do return I.unary op (← eval σ e)
  | .binary _ op a b => do return I.binary op (← eval σ a) (← eval σ b)
  | .conditional _ c t e => do if I.holds (← eval σ c) then eval σ t else eval σ e
  | .assign _ _ _ => none

def evalAll (σ : Env V) : List Expr → Option (List V)
  | [] => some []
  | e :: es => do return (← eval σ e) :: (← evalAll σ es)

end

/-! ## Pure expressions -/

mutual

/-- Nothing in the expression has a receiver, is a field access or assigns. -/
def isPure : Expr → Bool
  | .int _ _ | .bool _ _ | .str _ _ | .null _ | .self _ | .ident _ _ => true
  | .index _ e i => isPure e && isPure i
  | .call _ none _ args => allPure args
  | .create _ _ args => allPure args
  | .unary _ _ e => isPure e
  | .binary _ _ a b => isPure a && isPure b
  | .conditional _ c t e => isPure c && isPure t && isPure e
  | .field _ _ _ | .call _ (some _) _ _ | .assign _ _ _ => false

def allPure : List Expr → Bool
  | [] => true
  | e :: es => isPure e && allPure es

end

mutual

theorem exists_eval (σ : Env V) : ∀ e : Expr, isPure e = true → ∃ v, eval I σ e = some v
  | .int _ _, _ | .bool _ _, _ | .str _ _, _ | .null _, _ | .self _, _ | .ident _ _, _ => ⟨_, rfl⟩
  | .index _ e i, h => by
    simp only [isPure, Bool.and_eq_true] at h
    obtain ⟨v, hv⟩ := exists_eval σ e h.1
    obtain ⟨w, hw⟩ := exists_eval σ i h.2
    exact ⟨I.index v w, by simp [eval, hv, hw]⟩
  | .call _ none f args, h => by
    obtain ⟨vs, hvs⟩ := exists_evalAll σ args h
    exact ⟨I.call f vs, by simp [eval, hvs]⟩
  | .create _ t args, h => by
    obtain ⟨vs, hvs⟩ := exists_evalAll σ args h
    exact ⟨I.create t vs, by simp [eval, hvs]⟩
  | .unary _ op e, h => by
    obtain ⟨v, hv⟩ := exists_eval σ e h
    exact ⟨I.unary op v, by simp [eval, hv]⟩
  | .binary _ op a b, h => by
    simp only [isPure, Bool.and_eq_true] at h
    obtain ⟨v, hv⟩ := exists_eval σ a h.1
    obtain ⟨w, hw⟩ := exists_eval σ b h.2
    exact ⟨I.binary op v w, by simp [eval, hv, hw]⟩
  | .conditional _ c t e, h => by
    simp only [isPure, Bool.and_eq_true] at h
    obtain ⟨v, hv⟩ := exists_eval σ c h.1.1
    obtain ⟨w, hw⟩ := exists_eval σ t h.1.2
    obtain ⟨w', hw'⟩ := exists_eval σ e h.2
    refine ⟨if I.holds v then w else w', ?_⟩
    simp only [eval, hv, hw, hw', Option.bind_eq_bind, Option.bind_some]
    split <;> rfl

theorem exists_evalAll (σ : Env V) : ∀ es : List Expr, allPure es = true →
    ∃ vs, evalAll I σ es = some vs
  | [], _ => ⟨[], rfl⟩
  | e :: es, h => by
    simp only [allPure, Bool.and_eq_true] at h
    obtain ⟨v, hv⟩ := exists_eval σ e h.1
    obtain ⟨vs, hvs⟩ := exists_evalAll σ es h.2
    exact ⟨v :: vs, by simp [evalAll, hv, hvs]⟩

end

/-! ## Meanings -/

/-- The meaning of a statement: from which store it ends how, and in which store. -/
abbrev Runs (V : Type) := Env V → Signal V → Env V → Prop

def skip : Runs V := fun σ sig σ' => sig = .normal ∧ σ' = σ

/-- Ends at once in the given way. -/
def stop (sig : Signal V) : Runs V := fun σ sig' σ' => sig' = sig ∧ σ' = σ

/-- One after the other; the second is left out if the first does not end normally. -/
def seq (m k : Runs V) : Runs V := fun σ sig σ' =>
  (∃ σ₁, m σ .normal σ₁ ∧ k σ₁ sig σ') ∨ (sig ≠ .normal ∧ m σ sig σ')

/-- Goes on as `k` says for the value of an expression. -/
def withValue (e : Expr) (k : V → Runs V) : Runs V := fun σ sig σ' =>
  ∃ v, eval I σ e = some v ∧ k v σ sig σ'

def store (x : String) (v : V) : Runs V := fun σ sig σ' =>
  sig = .normal ∧ σ' = Function.update σ x v

/-- Stores values from left to right. -/
def storeAll (σ : Env V) : List String → List V → Env V
  | x :: xs, v :: vs => storeAll (Function.update σ x v) xs vs
  | _, _ => σ

/-- Evaluates all values, then stores them. -/
def unpack (u : Unpacking) : Runs V := fun σ sig σ' =>
  ∃ ts vs, u.targets = .ok ts ∧ evalAll I σ u.values = some vs ∧ ts.length = vs.length ∧
    sig = .normal ∧ σ' = storeAll σ (ts.map (·.name)) vs

/-- Rounds of a loop. -/
inductive Loop (c : Expr) (body : Runs V) : Runs V
  | done {σ v} (hc : eval I σ c = some v) (hv : I.holds v = false) : Loop c body σ .normal σ
  | again {σ v sig σ₁ sig' σ'} (hc : eval I σ c = some v) (hv : I.holds v = true)
    (hbody : body σ sig σ₁) (hsig : sig = .normal ∨ sig = .continues)
    (hrest : Loop c body σ₁ sig' σ') : Loop c body σ sig' σ'
  | left {σ v σ'} (hc : eval I σ c = some v) (hv : I.holds v = true)
    (hbody : body σ .breaks σ') : Loop c body σ .normal σ'
  | returned {σ v w σ'} (hc : eval I σ c = some v) (hv : I.holds v = true)
    (hbody : body σ (.returns w) σ') : Loop c body σ (.returns w) σ'

/-- Whether the value of a selector goes to this arm by its label. -/
def hits (σ : Env V) (v : V) (a : Arm) : Bool :=
  match a.label with
  | none => false
  | some e => (eval I σ e).any (I.selects v)

/-- The number of the arm where a switch starts: the first one hit, or else the default one. -/
def entry (σ : Env V) (v : V) (as : List Arm) : Nat :=
  if as.any (hits I σ v) then as.findIdx (hits I σ v) else as.findIdx (·.label.isNone)

/-- How a switch ends if its arms end so. -/
def Signal.outOfSwitch : Signal V → Signal V
  | .breaks => .normal
  | sig => sig

def switchTo (m : Runs V) : Runs V := fun σ sig σ' => ∃ sig', m σ sig' σ' ∧ sig = sig'.outOfSwitch

section Statements

variable (r : Resolver)

/-- The meaning of an expression that stands as a statement. -/
def execExpr (e : Expr) : Runs V :=
  match r.unpacking? e with
  | some u => unpack I u
  | none =>
    match e with
    | .assign _ (.ident _ x) e => withValue I e (store x)
    | e => withValue I e fun _ => skip

mutual

def exec : Stmt → Runs V
  | .expr _ e => execExpr I r e
  | .localVar _ _ _ none _ => skip
  | .localVar _ _ x (some e) _ => withValue I e (store x)
  | .block _ ss => execAll ss
  | .ifElse _ c t none => withValue I c fun v => if I.holds v then exec t else skip
  | .ifElse _ c t (some e) => withValue I c fun v => if I.holds v then exec t else exec e
  | .whileLoop _ c b => Loop I c (exec b)
  | .switch _ sel as =>
    withValue I sel fun v σ => switchTo (execArms as (entry I σ v as)) σ
  | .returnWith _ none => stop (.returns none)
  | .returnWith _ (some e) => withValue I e fun v => stop (.returns (some v))
  | .breakOut _ => stop .breaks
  | .continueOn _ => stop .continues
  | .empty _ => skip

def execAll : List Stmt → Runs V
  | [] => skip
  | s :: ss => seq (exec s) (execAll ss)

/-- Falls through the arms, from the one with the given number on. -/
def execArms : List Arm → Nat → Runs V
  | [], _ => skip
  | .mk _ ss :: as, 0 => seq (execAll ss) (execArms as 0)
  | _ :: as, n + 1 => execArms as n

end

end Statements

/-! ## Stores that agree -/

/-- The stores agree on all names but these. -/
def Agree (temps : List String) (σ τ : Env V) : Prop := ∀ x, x ∉ temps → σ x = τ x

variable {temps : List String} {σ τ : Env V}

theorem Agree.refl (σ : Env V) : Agree temps σ σ := fun _ _ => rfl

theorem Agree.symm (h : Agree temps σ τ) : Agree temps τ σ := fun x hx => (h x hx).symm

theorem Agree.update (h : Agree temps σ τ) (x : String) (v : V) :
    Agree temps (Function.update σ x v) (Function.update τ x v) := by
  intro y hy
  by_cases hyx : y = x
  · rw [hyx, Function.update_self, Function.update_self]
  · rw [Function.update_of_ne hyx, Function.update_of_ne hyx]
    exact h y hy

/-- What is stored in a temporary is not seen. -/
theorem Agree.update_temp (h : Agree temps σ τ) {x : String} (hx : x ∈ temps) (v : V) :
    Agree temps σ (Function.update τ x v) := by
  intro y hy
  have hyx : y ≠ x := fun heq => hy (heq ▸ hx)
  rw [Function.update_of_ne hyx]
  exact h y hy

theorem Agree.storeAll (h : Agree temps σ τ) (xs : List String) (vs : List V) :
    Agree temps (storeAll σ xs vs) (storeAll τ xs vs) := by
  induction xs generalizing σ τ vs with
  | nil => exact h
  | cons x xs ih =>
    cases vs with
    | nil => exact h
    | cons v vs => exact ih (h.update x v) vs

mutual

/-- The value of an expression depends on what it reads openly, and on nothing else. -/
theorem eval_congr : ∀ e : Expr, (∀ x, Reading.var x ∈ e.readings → σ x = τ x) →
    eval I σ e = eval I τ e
  | .int _ _, _ | .bool _ _, _ | .str _ _, _ | .null _, _ | .self _, _ => rfl
  | .field _ _ _, _ | .call _ (some _) _ _, _ | .assign _ _ _, _ => rfl
  | .ident _ x, h => congrArg some (h x List.mem_cons_self)
  | .index _ e i, h => by
    simp only [Expr.readings, List.mem_append] at h
    simp only [eval]
    rw [eval_congr e fun x hx => h x (.inl hx), eval_congr i fun x hx => h x (.inr hx)]
  | .call _ none f args, h => by
    simp only [eval]
    rw [evalAll_congr args h]
  | .create _ t args, h => by
    simp only [eval]
    rw [evalAll_congr args h]
  | .unary _ op e, h => by
    simp only [eval]
    rw [eval_congr e h]
  | .binary _ op a b, h => by
    simp only [Expr.readings, List.mem_append] at h
    simp only [eval]
    rw [eval_congr a fun x hx => h x (.inl hx), eval_congr b fun x hx => h x (.inr hx)]
  | .conditional _ c t e, h => by
    simp only [Expr.readings, List.mem_append] at h
    simp only [eval]
    rw [eval_congr c fun x hx => h x (.inl (.inl hx)), eval_congr t fun x hx => h x (.inl (.inr hx)),
      eval_congr e fun x hx => h x (.inr hx)]

theorem evalAll_congr : ∀ es : List Expr, (∀ x, Reading.var x ∈ Expr.readingsAll es → σ x = τ x) →
    evalAll I σ es = evalAll I τ es
  | [], _ => rfl
  | e :: es, h => by
    simp only [Expr.readingsAll, List.mem_append] at h
    simp only [evalAll]
    rw [eval_congr e fun x hx => h x (.inl hx), evalAll_congr es fun x hx => h x (.inr hx)]

end

/-- The expression reads none of these names openly. -/
def Avoids (temps : List String) (e : Expr) : Prop := ∀ x, Reading.var x ∈ e.readings → x ∉ temps

variable {I}

theorem Avoids.eval_eq {e : Expr} (h : Avoids temps e) (hσ : Agree temps σ τ) :
    eval I σ e = eval I τ e :=
  eval_congr I e fun x hx => hσ x (h x hx)

theorem evalAll_eq {es : List Expr} (h : ∀ e ∈ es, Avoids temps e) (hσ : Agree temps σ τ) :
    evalAll I σ es = evalAll I τ es := by
  induction es with
  | nil => rfl
  | cons e es ih =>
    simp only [evalAll]
    rw [(h e List.mem_cons_self).eval_eq hσ, ih fun e he => h e (List.mem_cons_of_mem _ he)]

/-! ## Sequences -/

theorem skip_seq (m : Runs V) : seq skip m = m := by
  funext σ sig σ'
  refine propext ⟨?_, fun h => .inl ⟨σ, ⟨rfl, rfl⟩, h⟩⟩
  rintro (⟨σ₁, ⟨-, rfl⟩, h⟩ | ⟨hsig, hnormal, -⟩)
  · exact h
  · exact absurd hnormal hsig

theorem seq_skip (m : Runs V) : seq m skip = m := by
  funext σ sig σ'
  refine propext ⟨?_, fun h => ?_⟩
  · rintro (⟨σ₁, h, rfl, rfl⟩ | ⟨-, h⟩) <;> exact h
  · by_cases hsig : sig = .normal
    · exact .inl ⟨σ', hsig ▸ h, hsig, rfl⟩
    · exact .inr ⟨hsig, h⟩

theorem seq_assoc (m k l : Runs V) : seq (seq m k) l = seq m (seq k l) := by
  funext σ sig σ'
  refine propext ⟨?_, ?_⟩
  · rintro (⟨σ₂, ⟨σ₁, hm, hk⟩ | ⟨hne, -⟩, hl⟩ | ⟨hsig, ⟨σ₁, hm, hk⟩ | ⟨-, hm⟩⟩)
    · exact .inl ⟨σ₁, hm, .inl ⟨σ₂, hk, hl⟩⟩
    · exact absurd rfl hne
    · exact .inl ⟨σ₁, hm, .inr ⟨hsig, hk⟩⟩
    · exact .inr ⟨hsig, hm⟩
  · rintro (⟨σ₁, hm, ⟨σ₂, hk, hl⟩ | ⟨hsig, hk⟩⟩ | ⟨hsig, hm⟩)
    · exact .inl ⟨σ₂, .inl ⟨σ₁, hm, hk⟩, hl⟩
    · exact .inr ⟨hsig, .inl ⟨σ₁, hm, hk⟩⟩
    · exact .inr ⟨hsig, .inr ⟨hsig, hm⟩⟩

theorem execAll_append (r : Resolver) (ss ss' : List Stmt) :
    execAll I r (ss ++ ss') = seq (execAll I r ss) (execAll I r ss') := by
  induction ss with
  | nil => rw [List.nil_append, execAll, skip_seq]
  | cons s ss ih => rw [List.cons_append, execAll, execAll, ih, seq_assoc]

/-! ## Simulation -/

/-- From stores that agree, every run of `m` is matched by one of `k` that ends in the same way. -/
def Sim (temps : List String) (m k : Runs V) : Prop :=
  ∀ σ τ, Agree temps σ τ → ∀ sig σ', m σ sig σ' → ∃ τ', k τ sig τ' ∧ Agree temps σ' τ'

namespace Sim

variable {m m' k k' : Runs V}

theorem stop (sig : Signal V) : Sim temps (stop sig) (stop sig) := by
  rintro σ τ hσ sig' σ' ⟨rfl, rfl⟩
  exact ⟨τ, ⟨rfl, rfl⟩, hσ⟩

theorem skip : Sim temps (V := V) Semantics.skip Semantics.skip := Sim.stop .normal

theorem store (x : String) (v : V) : Sim temps (store x v) (store x v) := by
  rintro σ τ hσ sig σ' ⟨rfl, rfl⟩
  exact ⟨_, ⟨rfl, rfl⟩, hσ.update x v⟩

theorem seq (h : Sim temps m m') (h' : Sim temps k k') : Sim temps (seq m k) (seq m' k') := by
  rintro σ τ hσ sig σ' (⟨σ₁, hm, hk⟩ | ⟨hsig, hm⟩)
  · obtain ⟨τ₁, hm', hσ₁⟩ := h σ τ hσ _ _ hm
    obtain ⟨τ', hk', hσ'⟩ := h' σ₁ τ₁ hσ₁ _ _ hk
    exact ⟨τ', .inl ⟨τ₁, hm', hk'⟩, hσ'⟩
  · obtain ⟨τ', hm', hσ'⟩ := h σ τ hσ _ _ hm
    exact ⟨τ', .inr ⟨hsig, hm'⟩, hσ'⟩

theorem withValue {e : Expr} (he : Avoids temps e) {k k' : V → Runs V}
    (h : ∀ v, Sim temps (k v) (k' v)) : Sim temps (withValue I e k) (withValue I e k') := by
  rintro σ τ hσ sig σ' ⟨v, hv, hk⟩
  obtain ⟨τ', hk', hσ'⟩ := h v σ τ hσ _ _ hk
  exact ⟨τ', ⟨v, he.eval_eq hσ ▸ hv, hk'⟩, hσ'⟩

theorem unpack {u : Unpacking} (h : ∀ e ∈ u.values, Avoids temps e) :
    Sim temps (unpack I u) (unpack I u) := by
  rintro σ τ hσ sig σ' ⟨ts, vs, hts, hvs, hlen, rfl, rfl⟩
  exact ⟨_, ⟨ts, vs, hts, evalAll_eq h hσ ▸ hvs, hlen, rfl, rfl⟩, hσ.storeAll _ vs⟩

theorem ite {p : Prop} [Decidable p] (h : Sim temps m m') (h' : Sim temps k k') :
    Sim temps (if p then m else k) (if p then m' else k') := by
  split
  · exact h
  · exact h'

theorem loop {c : Expr} (hc : Avoids temps c) (h : Sim temps m m') :
    Sim temps (Loop I c m) (Loop I c m') := by
  intro σ τ hσ sig σ' hrun
  induction hrun generalizing τ with
  | done hv hfalse => exact ⟨τ, .done (hc.eval_eq hσ ▸ hv) hfalse, hσ⟩
  | again hv htrue hbody hsig _ ih =>
    obtain ⟨τ₁, hbody', hσ₁⟩ := h _ τ hσ _ _ hbody
    obtain ⟨τ', hrest, hσ'⟩ := ih τ₁ hσ₁
    exact ⟨τ', .again (hc.eval_eq hσ ▸ hv) htrue hbody' hsig hrest, hσ'⟩
  | left hv htrue hbody =>
    obtain ⟨τ', hbody', hσ'⟩ := h _ τ hσ _ _ hbody
    exact ⟨τ', .left (hc.eval_eq hσ ▸ hv) htrue hbody', hσ'⟩
  | returned hv htrue hbody =>
    obtain ⟨τ', hbody', hσ'⟩ := h _ τ hσ _ _ hbody
    exact ⟨τ', .returned (hc.eval_eq hσ ▸ hv) htrue hbody', hσ'⟩

theorem switchTo (h : Sim temps m m') : Sim temps (switchTo m) (switchTo m') := by
  rintro σ τ hσ sig σ' ⟨sig', hm, rfl⟩
  obtain ⟨τ', hm', hσ'⟩ := h σ τ hσ _ _ hm
  exact ⟨τ', ⟨sig', hm', rfl⟩, hσ'⟩

end Sim

/-! ## Equivalence -/

/-- Each simulates the other. -/
structure Equiv (temps : List String) (m k : Runs V) : Prop where
  forth : Sim temps m k
  back : Sim temps k m

namespace Equiv

variable {m m' k k' : Runs V}

theorem symm (h : Equiv temps m k) : Equiv temps k m := ⟨h.back, h.forth⟩

theorem stop (sig : Signal V) : Equiv temps (stop sig) (stop sig) := ⟨.stop sig, .stop sig⟩

theorem seq (h : Equiv temps m m') (h' : Equiv temps k k') :
    Equiv temps (seq m k) (seq m' k') :=
  ⟨h.forth.seq h'.forth, h.back.seq h'.back⟩

theorem withValue {e : Expr} (he : Avoids temps e) {k k' : V → Runs V}
    (h : ∀ v, Equiv temps (k v) (k' v)) : Equiv temps (withValue I e k) (withValue I e k') :=
  ⟨.withValue he fun v => (h v).forth, .withValue he fun v => (h v).back⟩

theorem ite {p : Prop} [Decidable p] (h : Equiv temps m m') (h' : Equiv temps k k') :
    Equiv temps (if p then m else k) (if p then m' else k') :=
  ⟨h.forth.ite h'.forth, h.back.ite h'.back⟩

theorem loop {c : Expr} (hc : Avoids temps c) (h : Equiv temps m m') :
    Equiv temps (Loop I c m) (Loop I c m') :=
  ⟨.loop hc h.forth, .loop hc h.back⟩

end Equiv

/-! ### Switches -/

section Switches

variable (I) (r : Resolver)

/-- Arms with the same label, which reads none of the names, and equivalent statements. -/
structure ArmEquiv (temps : List String) (a a' : Arm) : Prop where
  label : a'.label = a.label
  avoids : ∀ e, a.label = some e → Avoids temps e
  stmts : Equiv temps (execAll I r a.stmts) (execAll I r a'.stmts)

variable {I r} {a a' : Arm} {as as' : List Arm}

theorem ArmEquiv.symm (h : ArmEquiv I r temps a a') : ArmEquiv I r temps a' a :=
  ⟨h.label.symm, fun e he => h.avoids e (h.label ▸ he), h.stmts.symm⟩

theorem ArmEquiv.hits_eq (h : ArmEquiv I r temps a a') (hσ : Agree temps σ τ) (v : V) :
    hits I τ v a' = hits I σ v a := by
  unfold hits
  rw [h.label]
  split
  · rfl
  · next e he => rw [(h.avoids e he).eval_eq hσ]

theorem findIdx_eq {p q : Arm → Bool} {R : Arm → Arm → Prop} (hR : ∀ a a', R a a' → q a' = p a)
    (h : List.Forall₂ R as as') : as'.findIdx q = as.findIdx p := by
  induction h with
  | nil => rfl
  | cons head _ ih => rw [List.findIdx_cons, List.findIdx_cons, hR _ _ head, ih]

theorem any_eq {p q : Arm → Bool} {R : Arm → Arm → Prop} (hR : ∀ a a', R a a' → q a' = p a)
    (h : List.Forall₂ R as as') : as'.any q = as.any p := by
  induction h with
  | nil => rfl
  | cons head _ ih => rw [List.any_cons, List.any_cons, hR _ _ head, ih]

/-- A switch starts at the same arm. -/
theorem entry_eq (h : List.Forall₂ (ArmEquiv I r temps) as as') (hσ : Agree temps σ τ) (v : V) :
    entry I τ v as' = entry I σ v as := by
  have hhits : ∀ a a', ArmEquiv I r temps a a' → hits I τ v a' = hits I σ v a :=
    fun a a' ha => ha.hits_eq hσ v
  have hdefault : ∀ a a', ArmEquiv I r temps a a' → a'.label.isNone = a.label.isNone :=
    fun a a' ha => congrArg Option.isNone ha.label
  unfold entry
  rw [any_eq hhits h, findIdx_eq hhits h, findIdx_eq hdefault h]

theorem execArms_sim (h : List.Forall₂ (ArmEquiv I r temps) as as') (n : Nat) :
    Sim temps (execArms I r as n) (execArms I r as' n) := by
  induction h generalizing n with
  | nil =>
    rw [execArms]
    exact .skip
  | @cons a a' as as' head _ ih =>
    obtain ⟨label, ss⟩ := a
    obtain ⟨label', ss'⟩ := a'
    cases n with
    | zero =>
      rw [execArms, execArms]
      exact head.stmts.forth.seq (ih 0)
    | succ n =>
      rw [execArms, execArms]
      exact ih n

theorem switch_sim {sel : Expr} (hsel : Avoids temps sel)
    (h : List.Forall₂ (ArmEquiv I r temps) as as') (s : Span) :
    Sim temps (exec I r (.switch s sel as)) (exec I r (.switch s sel as')) := by
  rw [exec, exec]
  apply Sim.withValue hsel
  intro v σ τ hσ sig σ' hrun
  rw [← entry_eq h hσ v] at hrun
  exact (execArms_sim h _).switchTo σ τ hσ sig σ' hrun

theorem switch_equiv {sel : Expr} (hsel : Avoids temps sel)
    (h : List.Forall₂ (ArmEquiv I r temps) as as') (s : Span) :
    Equiv temps (exec I r (.switch s sel as)) (exec I r (.switch s sel as')) :=
  ⟨switch_sim hsel h s, switch_sim hsel (h.flip.imp fun _ _ ha => ha.symm) s⟩

end Switches

end TupleAssign.Semantics
