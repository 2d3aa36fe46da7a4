import TupleAssign.Proofs.Rewrite
/-!
# Renaming

A tree with its names replaced, one by one, through a map `f`. What is read off a tree is renamed
with it. Names are only ever compared with each other. So if `f` keeps different names apart, all
that is decided about the renamed tree is decided as for the tree itself: which calls are marker
calls, which assignments are unpackings, which values need a temporary and where names are declared.
-/

namespace TupleAssign

/-! ## Renamed trees -/

namespace Tree

section

variable {ν μ : Type} (f : ν → μ)

mutual

def Ty.map : Ty ν → Ty μ
  | .primitive p => .primitive p
  | .named n args => .named (f n) (Ty.mapAll args)
  | .array elem => .array (Ty.map elem)

def Ty.mapAll : List (Ty ν) → List (Ty μ)
  | [] => []
  | t :: ts => Ty.map t :: Ty.mapAll ts

end

mutual

def Expr.map : Expr ν → Expr μ
  | .int s v => .int s v
  | .bool s v => .bool s v
  | .str s v => .str s (f v)
  | .null s => .null s
  | .self s => .self s
  | .ident s n => .ident s (f n)
  | .field s r n => .field s (Expr.map r) (f n)
  | .index s r i => .index s (Expr.map r) (Expr.map i)
  | .call s none n args => .call s none (f n) (Expr.mapAll args)
  | .call s (some r) n args => .call s (some (Expr.map r)) (f n) (Expr.mapAll args)
  | .create s t args => .create s (t.map f) (Expr.mapAll args)
  | .unary s op e => .unary s op (Expr.map e)
  | .binary s op l r => .binary s op (Expr.map l) (Expr.map r)
  | .conditional s c t e => .conditional s (Expr.map c) (Expr.map t) (Expr.map e)
  | .assign s t v => .assign s (Expr.map t) (Expr.map v)

def Expr.mapAll : List (Expr ν) → List (Expr μ)
  | [] => []
  | e :: es => Expr.map e :: Expr.mapAll es

end

mutual

def Stmt.map : Stmt ν → Stmt μ
  | .expr s e => .expr s (e.map f)
  | .localVar s t n init isFinal => .localVar s (t.map f) (f n) (init.map (Expr.map f)) isFinal
  | .block s ss => .block s (Stmt.mapAll ss)
  | .ifElse s c t none => .ifElse s (c.map f) (Stmt.map t) none
  | .ifElse s c t (some e) => .ifElse s (c.map f) (Stmt.map t) (some (Stmt.map e))
  | .whileLoop s c b => .whileLoop s (c.map f) (Stmt.map b)
  | .switch s sel arms => .switch s (sel.map f) (Arm.mapAll arms)
  | .returnWith s v => .returnWith s (v.map (Expr.map f))
  | .breakOut s => .breakOut s
  | .continueOn s => .continueOn s
  | .empty s => .empty s

def Stmt.mapAll : List (Stmt ν) → List (Stmt μ)
  | [] => []
  | s :: ss => Stmt.map s :: Stmt.mapAll ss

def Arm.mapAll : List (Arm ν) → List (Arm μ)
  | [] => []
  | .mk label ss :: as => .mk (label.map (Expr.map f)) (Stmt.mapAll ss) :: Arm.mapAll as

end

def Arm.map : Arm ν → Arm μ
  | .mk label ss => .mk (label.map (Expr.map f)) (ss.map (Stmt.map f))

def Body.map (b : Body ν) : Body μ where
  stmts := b.stmts.map (Stmt.map f)
  span := b.span

def mapParam (p : Param ν) : Param μ := { p with type := p.type.map f, name := f p.name }

def mapMember : Member ν → Member μ
  | .field d =>
    .field { d with type := d.type.map f, name := f d.name, init := d.init.map (Expr.map f) }
  | .method d =>
    .method { d with
      name := f d.name
      result := d.result.map (Ty.map f)
      params := d.params.map (mapParam f)
      body := d.body.map (Body.map f) }
  | .initializer d => .initializer { d with body := d.body.map f }

def mapClass (c : Class ν) : Class μ :=
  { c with name := f c.name, members := c.members.map (mapMember f) }

def mapUnit (u : CompilationUnit ν) : CompilationUnit μ where
  package := f u.package
  imports := u.imports.map (Import.map f)
  classes := u.classes.map (mapClass f)
  span := u.span

/-! Lists of trees are renamed tree by tree. -/

@[simp]
theorem Ty.mapAll_eq (ts : List (Ty ν)) : Ty.mapAll f ts = ts.map (Ty.map f) := by
  induction ts with
  | nil => rw [Ty.mapAll, List.map_nil]
  | cons t ts ih => rw [Ty.mapAll, List.map_cons, ih]

@[simp]
theorem Expr.mapAll_eq (es : List (Expr ν)) : Expr.mapAll f es = es.map (Expr.map f) := by
  induction es with
  | nil => rw [Expr.mapAll, List.map_nil]
  | cons e es ih => rw [Expr.mapAll, List.map_cons, ih]

@[simp]
theorem Stmt.mapAll_eq (ss : List (Stmt ν)) : Stmt.mapAll f ss = ss.map (Stmt.map f) := by
  induction ss with
  | nil => rw [Stmt.mapAll, List.map_nil]
  | cons s ss ih => rw [Stmt.mapAll, List.map_cons, ih]

@[simp]
theorem Arm.mapAll_eq (as : List (Arm ν)) : Arm.mapAll f as = as.map (Arm.map f) := by
  induction as with
  | nil => rw [Arm.mapAll, List.map_nil]
  | cons a as ih =>
    obtain ⟨label, ss⟩ := a
    rw [Arm.mapAll, List.map_cons, ih, Arm.map, Stmt.mapAll_eq]

theorem Expr.map_call (s : Span) (r : Option (Expr ν)) (n : ν) (args : List (Expr ν)) :
    (Expr.call s r n args).map f = .call s (r.map (Expr.map f)) (f n) (args.map (Expr.map f)) := by
  cases r <;> simp [Expr.map]

theorem Stmt.map_ifElse (s : Span) (c : Expr ν) (t : Stmt ν) (e : Option (Stmt ν)) :
    (Stmt.ifElse s c t e).map f = .ifElse s (c.map f) (t.map f) (e.map (Stmt.map f)) := by
  cases e <;> simp [Stmt.map]

end

end Tree

open TupleAssign.Tree (Ty Expr Stmt Arm Reading)

/-! ## What is read off a tree -/

section

variable {ν μ : Type} (f : ν → μ)

theorem Tree.Expr.dotted?_map (e : Expr ν) : (e.map f).dotted? = e.dotted?.map (List.map f) := by
  induction e using Expr.dotted?.induct with
  | case1 s n => simp [Expr.map, Expr.dotted?]
  | case2 s r n ih => cases h : r.dotted? <;> simp [Expr.map, Expr.dotted?, ih, h]
  | case3 e hident hfield =>
    cases e with
    | ident s n => exact absurd rfl (hident s n)
    | field s r n => exact absurd rfl (hfield s r n)
    | call s r n args => rw [Expr.map_call]; rfl
    | _ => simp [Expr.map, Expr.dotted?]

def Tree.Reading.map : Reading ν → Reading μ
  | .var n => .var (f n)
  | .member => .member

mutual

theorem Tree.Expr.readings_map : ∀ e : Expr ν, (e.map f).readings = e.readings.map (Reading.map f)
  | .int _ _ | .bool _ _ | .str _ _ | .null _ | .self _ | .ident _ _ | .field _ _ _ => by
    simp [Expr.map, Expr.readings, Reading.map]
  | .index _ r i => by simp [Expr.map, Expr.readings, readings_map r, readings_map i]
  | .call _ none _ args => by
    simp only [Expr.map, Expr.readings]
    exact readingsAll_map args
  | .call _ (some r) _ args => by
    simp only [Expr.map, Expr.readings, List.map_cons, readingsAll_map args, Reading.map]
  | .create _ _ args => by
    simp only [Expr.map, Expr.readings]
    exact readingsAll_map args
  | .unary _ _ e => by simp [Expr.map, Expr.readings, readings_map e]
  | .binary _ _ l r => by simp [Expr.map, Expr.readings, readings_map l, readings_map r]
  | .conditional _ c t e => by
    simp [Expr.map, Expr.readings, readings_map c, readings_map t, readings_map e]
  | .assign _ t v => by simp [Expr.map, Expr.readings, readings_map t, readings_map v]

theorem Tree.Expr.readingsAll_map : ∀ es : List (Expr ν),
    Expr.readingsAll (Expr.mapAll f es) = (Expr.readingsAll es).map (Reading.map f)
  | [] => by simp [Expr.mapAll, Expr.readingsAll]
  | e :: es => by
    rw [Expr.mapAll, Expr.readingsAll, Expr.readingsAll, List.map_append, readings_map e,
      readingsAll_map es]

end

/-! ## Problems -/

def Cause.map : Cause ν → Cause μ
  | .arityMismatch targets values => .arityMismatch targets values
  | .invalidLeftShape => .invalidLeftShape
  | .noEnclosingMethod => .noEnclosingMethod
  | .unresolvedTarget name => .unresolvedTarget (f name)

def Problem.map (p : Problem ν) : Problem μ where
  cause := p.cause.map f
  span := p.span

/-- A result whose names, also those of a problem, are replaced. -/
def mapResult {α β : Type} (g : α → β) : Except (Problem ν) α → Except (Problem μ) β
  | .error p => .error (p.map f)
  | .ok a => .ok (g a)

/-! ## Unpackings -/

def Side.map (s : Side ν) : Side μ where
  form := s.form
  args := s.args.map (Expr.map f)
  span := s.span

def Unpacking.map (u : Unpacking ν) : Unpacking μ where
  span := u.span
  left := u.left.map f
  right := u.right.map f

theorem Unpacking.target?_map (e : Expr ν) : Unpacking.target? (e.map f) =
    mapResult f (fun t => ⟨f t.name, t.span⟩) (Unpacking.target? e) := by
  cases e with
  | call s r n args => rw [Expr.map_call]; rfl
  | _ => simp [Expr.map, Unpacking.target?, mapResult, Problem.map, Cause.map, Expr.span]

theorem Unpacking.targets_map (u : Unpacking ν) :
    (u.map f).targets = mapResult f (List.map fun t => ⟨f t.name, t.span⟩) u.targets := by
  have hall (es : List (Expr ν)) : (es.map (Expr.map f)).mapM Unpacking.target? =
      mapResult f (List.map fun t => ⟨f t.name, t.span⟩) (es.mapM Unpacking.target?) := by
    induction es with
    | nil => rfl
    | cons e es ih =>
      rw [List.map_cons, List.mapM_cons, List.mapM_cons, ih, Unpacking.target?_map]
      cases Unpacking.target? e with
      | error p => rfl
      | ok t => cases es.mapM Unpacking.target? <;> rfl
  exact hall u.left.args

theorem checkTargets_map (inMethod : Bool) (u : Unpacking ν) :
    Desugar.checkTargets inMethod (u.map f) =
      mapResult f (List.map f) (Desugar.checkTargets inMethod u) := by
  have hleft : (u.map f).left.args.length = u.left.args.length := List.length_map _
  have hright : (u.map f).right.args.length = u.right.args.length := List.length_map _
  cases inMethod with
  | false => rfl
  | true =>
    by_cases hlen : u.left.args.length = u.right.args.length
    · have harity : u.checkArity = .ok () := if_pos hlen
      have harity' : (u.map f).checkArity = .ok () := if_pos (by rw [hleft, hright, hlen])
      simp only [Desugar.checkTargets, harity, harity', Unpacking.targets_map]
      cases u.targets with
      | error p => rfl
      | ok ts => simp [mapResult, bind, Except.bind, pure, Except.pure]
    · have harity : u.checkArity =
          .error (.arityMismatch u.left.args.length u.right.args.length) := if_neg hlen
      have harity' : (u.map f).checkArity =
          .error (.arityMismatch u.left.args.length u.right.args.length) := by
        rw [Unpacking.checkArity, hleft, hright, if_neg hlen]
      simp only [Desugar.checkTargets, harity, harity']
      rfl

end

/-! ## Comparisons -/

section

variable {ν μ : Type} [DecidableEq ν] [DecidableEq μ] {f : ν → μ}

def Resolver.map (f : ν → μ) (r : Resolver ν) : Resolver μ :=
  { r with method := f r.method, ownerSimple := f r.ownerSimple, ownerPath := r.ownerPath.map f }

theorem beq_map (hf : Function.Injective f) (n m : ν) : (f n == f m) = (n == m) := by
  rw [Bool.eq_iff_iff, beq_iff_eq, beq_iff_eq, hf.eq_iff]

omit [DecidableEq ν] [DecidableEq μ] in
theorem dotted?_map_eq_iff (hf : Function.Injective f) (e : Expr ν) (path : List ν) :
    (e.map f).dotted? = some (path.map f) ↔ e.dotted? = some path := by
  rw [Expr.dotted?_map]
  cases e.dotted? with
  | none => simp
  | some ns => simp [List.map_inj_right hf]

theorem classify_map (hf : Function.Injective f) (r : Resolver ν) (e : Expr ν) :
    (r.map f).classify (e.map f) = r.classify e := by
  cases e with
  | call s receiver n args =>
    rw [Expr.map_call, Resolver.classify, Resolver.classify, Resolver.map]
    cases receiver with
    | none => simp only [hf.eq_iff, Option.map_none, Resolver.classifyReceiver]
    | some e =>
      have hsimple := dotted?_map_eq_iff hf e [r.ownerSimple]
      rw [List.map_singleton] at hsimple
      simp only [hf.eq_iff, Option.map_some, Resolver.classifyReceiver, List.length_map,
        dotted?_map_eq_iff hf, hsimple]
  | _ => simp [Expr.map, Resolver.classify]

theorem side?_map (hf : Function.Injective f) (r : Resolver ν) (e : Expr ν) :
    (r.map f).side? (e.map f) = (r.side? e).map (Side.map f) := by
  cases e with
  | call s receiver n args =>
    have hclassify := classify_map hf r (.call s receiver n args)
    rw [Expr.map_call] at hclassify ⊢
    rw [Resolver.side?, Resolver.side?, hclassify, Option.map_map]
    rfl
  | _ => simp [Expr.map, Resolver.side?]

theorem unpacking?_map (hf : Function.Injective f) (r : Resolver ν) (e : Expr ν) :
    (r.map f).unpacking? (e.map f) = (r.unpacking? e).map (Unpacking.map f) := by
  cases e with
  | assign s t v =>
    simp only [Expr.map, Resolver.unpacking?, side?_map hf]
    cases r.side? t <;> cases r.side? v <;> rfl
  | call s receiver n args => rw [Expr.map_call]; rfl
  | _ => simp [Expr.map, Resolver.unpacking?]

mutual

theorem unpackings_map (hf : Function.Injective f) (r : Resolver ν) : ∀ e : Expr ν,
    Rewrite.unpackings (r.map f) (e.map f) = (Rewrite.unpackings r e).map (Unpacking.map f)
  | .int _ _ | .bool _ _ | .str _ _ | .null _ | .self _ | .ident _ _ => by
    simp [Expr.map, Rewrite.unpackings]
  | .field _ e _ => by simp only [Expr.map, Rewrite.unpackings, unpackings_map hf r e]
  | .index _ e i => by
    simp only [Expr.map, Rewrite.unpackings, unpackings_map hf r e, unpackings_map hf r i,
      List.map_append]
  | .call _ none _ args => by
    simp only [Expr.map, Rewrite.unpackings, unpackingsAll_map hf r args]
  | .call _ (some e) _ args => by
    simp only [Expr.map, Rewrite.unpackings, unpackings_map hf r e, unpackingsAll_map hf r args,
      List.map_append]
  | .create _ _ args => by simp only [Expr.map, Rewrite.unpackings, unpackingsAll_map hf r args]
  | .unary _ _ e => by simp only [Expr.map, Rewrite.unpackings, unpackings_map hf r e]
  | .binary _ _ a b => by
    simp only [Expr.map, Rewrite.unpackings, unpackings_map hf r a, unpackings_map hf r b,
      List.map_append]
  | .conditional _ c t e => by
    simp only [Expr.map, Rewrite.unpackings, unpackings_map hf r c, unpackings_map hf r t,
      unpackings_map hf r e, List.map_append]
  | .assign s t v => by
    have hassign := unpacking?_map hf r (.assign s t v)
    rw [Expr.map] at hassign ⊢
    rw [Rewrite.unpackings, Rewrite.unpackings, hassign]
    cases r.unpacking? (.assign s t v) with
    | some u => rfl
    | none =>
      simp only [Option.map_none, unpackings_map hf r t, unpackings_map hf r v, List.map_append]

theorem unpackingsAll_map (hf : Function.Injective f) (r : Resolver ν) : ∀ es : List (Expr ν),
    Rewrite.unpackingsAll (r.map f) (Expr.mapAll f es) =
      (Rewrite.unpackingsAll r es).map (Unpacking.map f)
  | [] => by simp [Expr.mapAll, Rewrite.unpackingsAll]
  | e :: es => by
    rw [Expr.mapAll, Rewrite.unpackingsAll, Rewrite.unpackingsAll, unpackings_map hf r e,
      unpackingsAll_map hf r es, List.map_append]

end

theorem unpackings?_map (hf : Function.Injective f) (r : Resolver ν) (o : Option (Expr ν)) :
    Rewrite.unpackings? (r.map f) (o.map (Expr.map f)) =
      (Rewrite.unpackings? r o).map (Unpacking.map f) := by
  cases o with
  | none => rfl
  | some e => simp only [Option.map_some, Rewrite.unpackings?_some, unpackings_map hf]

/-! ## Hazards -/

theorem hazard_map (hf : Function.Injective f) (forbidden : List ν) (e : Expr ν) :
    Hazard.classify (forbidden.map f) (e.map f) = Hazard.classify forbidden e := by
  have hforbids : Hazard.forbids (forbidden.map f) ∘ Reading.map f = Hazard.forbids forbidden := by
    funext x
    cases x with
    | var n =>
      rw [Bool.eq_iff_iff]
      simp [Hazard.forbids, Reading.map, hf.eq_iff]
    | member => rfl
  simp only [Hazard.classify, Expr.readings_map, List.any_map, hforbids, List.isEmpty_map]

theorem analyzeAfter_map (hf : Function.Injective f) (done targets : List ν)
    (values : List (Expr ν)) :
    Hazard.analyzeAfter (done.map f) (targets.map f) (values.map (Expr.map f)) =
      Hazard.analyzeAfter done targets values := by
  induction targets generalizing done values with
  | nil => rfl
  | cons t ts ih =>
    cases values with
    | nil => rfl
    | cons v vs =>
      simp only [List.map_cons, Hazard.analyzeAfter, hazard_map hf]
      rw [← List.map_cons, ih]

theorem analyze_map (hf : Function.Injective f) (targets : List ν) (values : List (Expr ν)) :
    Hazard.analyze (targets.map f) (values.map (Expr.map f)) = Hazard.analyze targets values :=
  analyzeAfter_map hf [] targets values

/-! ## Scopes -/

def Declaration.map (f : ν → μ) (d : Declaration (Ty ν) ν) : Declaration (Ty μ) μ where
  name := f d.name
  type := d.type.map f
  offset := d.offset

def Scopes.map (f : ν → μ) (s : Scopes (Ty ν) ν) : Scopes (Ty μ) μ where
  frames := s.frames.map (List.map (Declaration.map f))

theorem resolve_map (hf : Function.Injective f) (s : Scopes (Ty ν) ν) (name : ν) (offset : Nat) :
    (s.map f).resolve (f name) offset = (s.resolve name offset).map (Ty.map f) := by
  have hsees : (fun d : Declaration (Ty μ) μ => d.name == f name && d.offset < offset) ∘
      Declaration.map f = fun d : Declaration (Ty ν) ν => d.name == name && d.offset < offset := by
    funext d
    exact congrArg (· && decide (d.offset < offset)) (beq_map hf d.name name)
  obtain ⟨frames⟩ := s
  simp only [Scopes.resolve, Scopes.map]
  induction frames with
  | nil => rfl
  | cons frame frames ih =>
    rw [List.map_cons, List.findSome?_cons, List.findSome?_cons, ih, List.find?_map, hsees]
    cases frame.find? _ <;> rfl

theorem tempTypes_map (hf : Function.Injective f) (s : Scopes (Ty ν) ν) (span : Span)
    (targets : List ν) (hs : List Hazard) :
    Desugar.tempTypes (s.map f) span (targets.map f) hs =
      mapResult f (List.map (Option.map (Ty.map f))) (Desugar.tempTypes s span targets hs) := by
  induction targets generalizing hs with
  | nil => rfl
  | cons t ts ih =>
    cases hs with
    | nil => rfl
    | cons h hs =>
      rw [List.map_cons, Desugar.tempTypes, Desugar.tempTypes, ih, resolve_map hf]
      cases h.needsTemporary with
      | false => cases Desugar.tempTypes s span ts hs <;> rfl
      | true =>
        cases s.resolve t span.start with
        | none => rfl
        | some type => cases Desugar.tempTypes s span ts hs <;> rfl

end

end TupleAssign
