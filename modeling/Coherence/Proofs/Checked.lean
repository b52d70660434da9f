import Coherence.Proofs.Code
/-!
# The expressions of a body, as they are checked

The checker meets the expressions of a body one after another, each in the table that the statements
before it left (`Body.checked`). If the body is accepted, each of them has a type there
(`Body.inferred_of_generate`), and so has every expression in it (`Expr.infer_parts`): names are looked
up in that very table.
-/

namespace Coherence

open SymbolTable (Grown Untouched)

/-! ### Expressions in expressions -/

namespace Expr

mutual

/-- The expression and all expressions in it, from left to right. -/
def parts : Expr → List Expr
  | .var ident location => [.var ident location]
  | .literal value location => [.literal value location]
  | .call ident args location => .call ident args location :: partsAll args
  | .binary lhs op rhs location => .binary lhs op rhs location :: (parts lhs ++ parts rhs)

def partsAll : List Expr → List Expr
  | [] => []
  | e :: es => parts e ++ partsAll es

end

section infer

variable (t : SymbolTable) (m : Option StateMachine)

mutual

/-- What has a type is made up of expressions that have types. -/
theorem infer_parts : ∀ (e : Expr) {τ : TypeSymbol}, e.infer t m = .ok τ →
    ∀ p ∈ e.parts, ∃ σ, p.infer t m = .ok σ
  | .var ident location, τ, h, p, hp => ⟨τ, List.mem_singleton.mp hp ▸ h⟩
  | .literal value location, τ, h, p, hp => ⟨τ, List.mem_singleton.mp hp ▸ h⟩
  | .call ident args location, τ, h, p, hp => by
      rcases List.mem_cons.mp hp with rfl | hp
      · exact ⟨τ, h⟩
      · simp only [infer, bind_eq_ok] at h
        obtain ⟨f, -, h⟩ := h
        split at h
        · rename_i hlen
          obtain ⟨_, hargs, -⟩ := bind_eq_ok.mp h
          exact checkArgs_parts args hlen.symm hargs p hp
        · cases h
  | .binary lhs op rhs location, τ, h, p, hp => by
      rcases List.mem_cons.mp hp with rfl | hp
      · exact ⟨τ, h⟩
      · simp only [infer, bind_eq_ok] at h
        obtain ⟨left, hl, right, hr, -⟩ := h
        rcases List.mem_append.mp hp with hp | hp
        · exact infer_parts lhs hl p hp
        · exact infer_parts rhs hr p hp

/-- Arguments that fit have types, and so have all expressions in them. -/
theorem checkArgs_parts : ∀ (args : List Expr) {params : List Param},
    args.length = params.length → checkArgs t m args params = .ok () →
      ∀ p ∈ partsAll args, ∃ σ, p.infer t m = .ok σ
  | [], _, _, _, p, hp => by cases hp
  | _ :: _, [], hlen, _, _, _ => by cases hlen
  | arg :: args, param :: params, hlen, h, p, hp => by
      simp only [checkArgs, bind_eq_ok] at h
      obtain ⟨found, harg, _, -, hargs⟩ := h
      rcases List.mem_append.mp hp with hp | hp
      · exact infer_parts arg harg p hp
      · exact checkArgs_parts args (Nat.succ.inj hlen) hargs p hp

end

theorem findVar_of_infer {e : Expr} {τ : TypeSymbol} (h : e.infer t m = .ok τ) {name : String}
    {location : Location} (hp : Expr.var name location ∈ e.parts) :
    ∃ v, t.findVar name location = .ok v := by
  obtain ⟨σ, hσ⟩ := infer_parts t m e h _ hp
  obtain ⟨v, hv, -⟩ := map_eq_ok.mp hσ
  exact ⟨v, hv⟩

/-- The calls of an expression that has a type have the right number of arguments for the function
that they mean, and the right types. -/
theorem callee_of_infer {e : Expr} {τ : TypeSymbol} (h : e.infer t m = .ok τ) {ident : String}
    {args : List Expr} {location : Location} (hp : Expr.call ident args location ∈ e.parts) :
    ∃ f, callee t m ident location = .ok f ∧ f.params.length = args.length ∧
      checkArgs t m args f.params = .ok () := by
  obtain ⟨σ, hσ⟩ := infer_parts t m e h _ hp
  simp only [infer, bind_eq_ok] at hσ
  obtain ⟨f, hf, hσ⟩ := hσ
  split at hσ
  · rename_i hlen
    obtain ⟨_, hargs, -⟩ := bind_eq_ok.mp hσ
    exact ⟨f, hf, hlen, hargs⟩
  · cases hσ

end infer

end Expr

/-! ### Expressions in statements -/

/-- An expression of a body, with the table that it is checked in. -/
structure Checked where
  expr : Expr
  table : SymbolTable
  /-- The local variable that the expression is the first value of. -/
  initializes : Option String := none

namespace Body

mutual

/-- The expressions of a statement as the checker meets them. -/
def checkedOne (c : BodyContext) (t : SymbolTable) (out : Listing) : Stmt → List Checked
  | .eval expr _ => [{ expr, table := t }]
  | .ret value _ => value.toList.map fun expr => { expr, table := t }
  | .assign lhs rhs _ => [{ expr := lhs, table := t }, { expr := rhs, table := t }]
  | .declare _ ident init _ =>
    init.toList.map fun expr => { expr, table := t, initializes := ident }
  | .branch cond thenBlock none _ =>
    { expr := cond, table := t } :: checked c t.push (out.line (thenText cond)).indent thenBlock
  | .branch cond thenBlock (some elseBlock) _ =>
    let first := thenOutcome c t out cond thenBlock
    { expr := cond, table := t } :: (checked c t.push (out.line (thenText cond)).indent thenBlock ++
      checked c first.table.push (first.listing.dedent.line elseText).indent elseBlock)

/-- The expressions of statements as the checker meets them. -/
def checked (c : BodyContext) (t : SymbolTable) (out : Listing) : List Stmt → List Checked
  | [] => []
  | s :: rest =>
    let first := generateOne c t out s
    checkedOne c t out s ++ checked c first.table first.listing rest

end

variable (c : BodyContext)

mutual

theorem inferred_of_generateOne : ∀ (t : SymbolTable) (out : Listing) (s : Stmt),
    (generateOne c t out s).error = none →
      ∀ k ∈ checkedOne c t out s, ∃ τ, k.expr.infer k.table c.machine = .ok τ
  | t, out, .eval expr location, h, k, hk => by
      obtain ⟨τ, hτ, -⟩ := map_eq_ok.mp (emit_accepted h).1
      rw [List.mem_singleton.mp hk]
      exact ⟨τ, hτ⟩
  | t, out, .ret none location, h, k, hk => by cases hk
  | t, out, .ret (some expr) location, h, k, hk => by
      obtain ⟨τ, hτ, -⟩ := bind_eq_ok.mp (emit_accepted h).1
      rw [List.mem_singleton.mp hk]
      exact ⟨τ, hτ⟩
  | t, out, .assign lhs rhs location, h, k, hk => by
      have hcheck : c.checkAssign t lhs rhs location = .ok () := (emit_accepted h).1
      unfold BodyContext.checkAssign at hcheck
      split at hcheck
      · simp only [bind_eq_ok] at hcheck
        obtain ⟨left, hl, right, hr, -⟩ := hcheck
        rcases List.mem_cons.mp hk with rfl | hk
        · exact ⟨left, hl⟩
        · rw [List.mem_singleton.mp hk]
          exact ⟨right, hr⟩
      · cases hcheck
  | t, out, .declare type ident none location, h, k, hk => by cases hk
  | t, out, .declare type ident (some init) location, h, k, hk => by
      obtain ⟨symbol, u, hd, -⟩ := declare_accepted h
      simp only [BodyContext.declareLocal, BodyContext.checkInit, bind_eq_ok] at hd
      obtain ⟨-, -, _, ⟨τ, hτ, -⟩, -⟩ := hd
      rw [List.mem_singleton.mp hk]
      exact ⟨τ, hτ⟩
  | t, out, .branch cond thenBlock none location, h, k, hk => by
      obtain ⟨hc, he, -⟩ := branch_accepted h
      obtain ⟨τ, hτ, -⟩ := bind_eq_ok.mp hc
      rcases List.mem_cons.mp hk with rfl | hk
      · exact ⟨τ, hτ⟩
      · exact inferred_of_generate _ _ thenBlock he k hk
  | t, out, .branch cond thenBlock (some elseBlock) location, h, k, hk => by
      obtain ⟨hc, he, he', -⟩ := branchElse_accepted h
      obtain ⟨τ, hτ, -⟩ := bind_eq_ok.mp hc
      rcases List.mem_cons.mp hk with rfl | hk
      · exact ⟨τ, hτ⟩
      · rcases List.mem_append.mp hk with hk | hk
        · exact inferred_of_generate _ _ thenBlock he k hk
        · exact inferred_of_generate _ _ elseBlock he' k hk

theorem inferred_of_generate : ∀ (t : SymbolTable) (out : Listing) (ss : List Stmt),
    (generate c t out ss).error = none →
      ∀ k ∈ checked c t out ss, ∃ τ, k.expr.infer k.table c.machine = .ok τ
  | _, _, [], _, k, hk => by cases hk
  | t, out, s :: rest, h, k, hk => by
      obtain ⟨he, heq⟩ := cons_accepted h
      rw [heq] at h
      rcases List.mem_append.mp hk with hk | hk
      · exact inferred_of_generateOne t out s he k hk
      · exact inferred_of_generate _ _ rest h k hk

end

/-- New frames and new variables keep what holds of a table. -/
structure Lasting (P : SymbolTable → Prop) : Prop where
  push : ∀ t, P t → P t.push
  grown : ∀ t u, Grown none Untouched t u → P t → P u

variable {P : SymbolTable → Prop}

mutual

theorem table_checkedOne (hP : Lasting P) : ∀ (t : SymbolTable) (out : Listing) (s : Stmt), P t →
    ∀ k ∈ checkedOne c t out s, P k.table
  | t, out, .eval .., h, k, hmem => by rwa [List.mem_singleton.mp hmem]
  | t, out, .ret none _, h, k, hmem => by cases hmem
  | t, out, .ret (some _) _, h, k, hmem => by rwa [List.mem_singleton.mp hmem]
  | t, out, .assign .., h, k, hmem => by
      rcases List.mem_cons.mp hmem with rfl | hmem
      · exact h
      · rwa [List.mem_singleton.mp hmem]
  | t, out, .declare _ _ none _, h, k, hmem => by cases hmem
  | t, out, .declare _ _ (some _) _, h, k, hmem => by rwa [List.mem_singleton.mp hmem]
  | t, out, .branch cond thenBlock none _, h, k, hmem => by
      rcases List.mem_cons.mp hmem with rfl | hmem
      · exact h
      · exact table_checked hP t.push _ thenBlock (hP.push t h) k hmem
  | t, out, .branch cond thenBlock (some elseBlock) _, h, k, hmem => by
      rcases List.mem_cons.mp hmem with rfl | hmem
      · exact h
      · rcases List.mem_append.mp hmem with hmem | hmem
        · exact table_checked hP t.push _ thenBlock (hP.push t h) k hmem
        · have hkept : Grown none Untouched t (thenOutcome c t out cond thenBlock).table :=
            kept_block (grown_generate c t.push _ thenBlock)
          exact table_checked hP _ _ elseBlock (hP.push _ (hP.grown _ _ hkept h)) k hmem

/-- What lasts holds of the table of every expression of a body. -/
theorem table_checked (hP : Lasting P) : ∀ (t : SymbolTable) (out : Listing) (ss : List Stmt), P t →
    ∀ k ∈ checked c t out ss, P k.table
  | _, _, [], _, k, hmem => by cases hmem
  | t, out, s :: rest, h, k, hmem => by
      rcases List.mem_append.mp hmem with hmem | hmem
      · exact table_checkedOne hP t out s h k hmem
      · exact table_checked hP _ _ rest (hP.grown _ _ (grown_generateOne c t out s) h) k hmem

end

/-- Wherever in a body an expression stands, the same types and functions are in scope. -/
theorem lookup_checked {name : String} {kind : SymbolKind} (hk : kind ≠ .var) (t : SymbolTable)
    (out : Listing) (ss : List Stmt) :
    ∀ k ∈ checked c t out ss, k.table.lookup name kind = t.lookup name kind :=
  table_checked c (P := fun u => u.lookup name kind = t.lookup name kind)
    ⟨fun _ h => h, fun _ _ hgrown h => (hgrown.lookup hk name).trans h⟩ t out ss rfl

end Body

/-- The expressions of the body of a function with this result, as the checker meets them. -/
def FuncDecl.checked (s : Site) (returnType : TypeSymbol) (d : FuncDecl) : List Checked :=
  Body.checked (bodyContext s returnType) (d.bodyTable s) { depth := 1 } (d.body?.getD [])

theorem FuncDecl.lookup_checked {s : Site} {d : FuncDecl} {ρ : TypeSymbol} {k : Checked}
    (hmem : k ∈ d.checked s ρ) {kind : SymbolKind} (hk : kind ≠ .var) (name : String) :
    k.table.lookup name kind = s.table.lookup name kind := by
  rw [Body.lookup_checked _ hk _ _ _ k hmem, bodyTable,
    (grown_bindFormals s.table.push d.formals).lookup hk, SymbolTable.lookup_push]

theorem FuncDecl.inferred_of_toFunc {s : Site} {d : FuncDecl} {f : Func}
    (h : (d.toFunc s).1 = .ok f) :
    ∀ k ∈ d.checked s f.returnType, ∃ τ, k.expr.infer k.table s.machine = .ok τ := by
  intro k hk
  unfold FuncDecl.checked at hk
  cases hb : d.body? with
  | none =>
      rw [hb] at hk
      cases hk
  | some statements =>
      rw [hb] at hk
      obtain ⟨-, hbody, -⟩ := generated_toFunc h hb
      exact Body.inferred_of_generate _ _ _ statements hbody k hk

end Coherence
