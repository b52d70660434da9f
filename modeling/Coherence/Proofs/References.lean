import Coherence.Proofs.Checked
import Mathlib.Data.List.Forall2
/-!
# Variables in generated code

The checker looks variables up in frames: the innermost frame that binds a name wins, and a local
variable is bound after its first value was checked. In generated code a name denotes the newest
variable of that name, each block of an `if` ends the scope of what it declares, and a local variable
is in scope from its declarator on, its own first value included (`Code.placed`). Variables that are in
scope together are told apart by their numbers, counted from the oldest one.

The two agree on every occurrence of a variable but for one kind (`FuncDecl.compile_denotes`): in the
first value of a local variable its name means the variable that it hides when it is checked, and the new
variable when the generated code is read (`FuncDecl.shadowing_misread`).
-/

namespace Coherence

open SymbolTable (Grown Untouched)

/-! ### Variables by number -/

/-- The number of the variable that a name denotes, where variables of these names are in scope, the
newest first. -/
def denoted (name : String) : List String → Option Nat
  | [] => none
  | n :: older => if n = name then some older.length else denoted name older

theorem denoted_lt {name : String} {scope : List String} {n : Nat}
    (h : denoted name scope = some n) : n < scope.length := by
  induction scope with
  | nil => cases h
  | cons first older ih =>
      rw [List.length_cons]
      unfold denoted at h
      split at h
      · cases h
        omega
      · have := ih h
        omega

theorem denoted_append {name : String} {newer older : List String} (h : name ∉ newer) :
    denoted name (newer ++ older) = denoted name older := by
  induction newer with
  | nil => rfl
  | cons n newer ih =>
      rw [List.mem_cons, not_or] at h
      rw [List.cons_append, denoted, if_neg (Ne.symm h.1)]
      exact ih h.2

/-- A lookup by name ends at the newest entry of the name. -/
theorem denoted_of_lookup {α : Type} {entries : List (String × α)} {name : String} {a : α}
    (h : entries.lookup name = some a) :
    ∃ n, denoted name (entries.map Prod.fst) = some n ∧ entries.reverse[n]? = some (name, a) := by
  obtain ⟨newer, older, rfl, hnewer⟩ := List.lookup_eq_some_iff.mp h
  have hnot : name ∉ newer.map Prod.fst := by
    intro hmem
    obtain ⟨e, he, rfl⟩ := List.mem_map.mp hmem
    simpa using hnewer e he
  refine ⟨older.length, ?_, ?_⟩
  · rw [List.map_append, denoted_append hnot, List.map_cons, denoted, if_pos rfl, List.length_map]
  · rw [List.reverse_append, List.reverse_cons, List.append_assoc,
      List.getElem?_append_right (by simp)]
    simp

/-- The variables that a frame binds, the newest first. -/
def Frame.vars (f : Frame) : List (String × Symbol) :=
  f.symbols.filterMap fun e => if e.1.2 = .var then some (e.1.1, e.2) else none

namespace SymbolTable

/-- The variables in scope, the newest first. -/
def vars (t : SymbolTable) : List (String × Symbol) := t.frames.flatMap Frame.vars

/-- The names of the variables in scope, the newest first. -/
def live (t : SymbolTable) : List String := t.vars.map Prod.fst

variable {t u : SymbolTable}

theorem lookup_vars (t : SymbolTable) (name : String) :
    t.vars.lookup name = t.lookup name .var := by
  have hframe : ∀ symbols : List ((String × SymbolKind) × Symbol),
      (symbols.filterMap fun e => if e.1.2 = .var then some (e.1.1, e.2) else none).lookup name =
        symbols.lookup (name, .var) := by
    intro symbols
    induction symbols with
    | nil => rfl
    | cons e rest ih =>
        obtain ⟨⟨n, kind⟩, s⟩ := e
        rw [List.filterMap_cons, List.lookup_cons]
        by_cases hk : kind = .var
        · subst hk
          have hkey : ((name, SymbolKind.var) == (n, SymbolKind.var)) = (name == n) := by
            by_cases hn : name = n <;> simp [hn]
          simp only [if_true, List.lookup_cons, hkey, ih]
        · have hne : ((name, SymbolKind.var) == (n, kind)) = false := by
            simpa using fun _ h => hk h.symm
          simp only [hk, if_false, hne, ih]
  unfold vars lookup
  induction t.frames with
  | nil => rfl
  | cons f fs ih =>
      rw [List.flatMap_cons, List.lookup_append, ih, List.findSome?_cons, Frame.vars,
        hframe f.symbols, Frame.find?]
      cases f.symbols.lookup (name, .var) <;> rfl

theorem live_push (t : SymbolTable) (owner : Option String) : (t.push owner).live = t.live := rfl

theorem live_bind (t : SymbolTable) (v : Var) : (t.bind (.var v)).live = v.ident :: t.live := rfl

theorem live_congr (h : u.frames = t.frames) : u.live = t.live := by
  rw [live, live, vars, vars, h]

/-- The lookup of a variable ends at the variable of this number. -/
structure Resolves (t : SymbolTable) (name : String) (location : Location) (n : Nat) (v : Var) :
    Prop where
  found : t.findVar name location = .ok v
  number : denoted name t.live = some n
  entry : t.vars.reverse[n]? = some (name, .var v)

theorem resolves_of_findVar {name : String} {location : Location} {v : Var}
    (h : t.findVar name location = .ok v) : ∃ n, t.Resolves name location n v := by
  have hlookup : t.vars.lookup name = some (.var v) := by
    rw [lookup_vars]
    obtain ⟨s, hs, hv⟩ := bind_eq_ok.mp h
    unfold find at hs
    cases hl : t.lookup name .var with
    | none =>
        rw [hl] at hs
        cases hs
    | some s' =>
        rw [hl] at hs
        cases hs
        cases s <;> cases hv
        rfl
  obtain ⟨n, hn, hentry⟩ := denoted_of_lookup hlookup
  exact ⟨n, h, hn, hentry⟩

end SymbolTable

/-! ### Scopes of generated code -/

/-- An expression of generated code, with the names of the variables in scope, the newest first. -/
structure Placed where
  expr : Expr
  scope : List String

namespace Code

/-- The variable that a statement leaves in scope. -/
def declared : Code → Option String
  | .declare _ ident _ => some ident
  | _ => none

mutual

/-- The expressions of a statement with their scopes. -/
def placed (scope : List String) : Code → List Placed
  | .eval expr => [⟨expr, scope⟩]
  | .ret value => value.toList.map fun expr => ⟨expr, scope⟩
  | .assign lhs rhs => [⟨lhs, scope⟩, ⟨rhs, scope⟩]
  -- The variable is in scope in its own first value.
  | .declare _ ident init => init.toList.map fun expr => ⟨expr, ident :: scope⟩
  | .branch cond thenBlock none => ⟨cond, scope⟩ :: placedAll scope thenBlock
  | .branch cond thenBlock (some elseBlock) =>
    ⟨cond, scope⟩ :: (placedAll scope thenBlock ++ placedAll scope elseBlock)

def placedAll (scope : List String) : List Code → List Placed
  | [] => []
  | c :: rest => placed scope c ++ placedAll (c.declared.toList ++ scope) rest

end

end Code

/-! ### The two together -/

/-- An expression stands in generated code where the same variables are in scope as when it was
checked, and the variable that it is the first value of. -/
structure Checked.Stands (k : Checked) (p : Placed) : Prop where
  expr : p.expr = k.expr
  scope : p.scope = k.initializes.toList ++ k.table.live

namespace Body

variable (c : BodyContext) (spelling : String → String)

theorem live_generateOne {t : SymbolTable} {out : Listing} {s : Stmt}
    (h : (generateOne c t out s).error = none) :
    (generateOne c t out s).table.live = (s.code spelling).declared.toList ++ t.live := by
  have hblock : ∀ (u : SymbolTable) (out : Listing) (ss : List Stmt),
      (generate c u.push out ss).close.table.live = u.live := by
    intro u out ss
    exact SymbolTable.live_congr (grown_generate c u.push out ss).close.frames
  cases s with
  | eval expr location => rw [generateOne, (emit_accepted h).2]; rfl
  | ret value location => rw [generateOne, (emit_accepted h).2]; rfl
  | assign lhs rhs location => rw [generateOne, (emit_accepted h).2]; rfl
  | declare type ident init location =>
      obtain ⟨symbol, u, hd, heq⟩ := declare_accepted h
      simp only [BodyContext.declareLocal, bind_eq_ok] at hd
      obtain ⟨_, -, _, -, _, hv, hu⟩ := hd
      cases hu
      obtain ⟨-, rfl⟩ := SymbolTable.declare_eq_ok.mp hv
      rw [heq]
      exact SymbolTable.live_bind t _
  | branch cond thenBlock elseBlock location =>
      cases elseBlock with
      | none =>
          rw [(branch_accepted h).2.2]
          exact hblock t _ thenBlock
      | some elseBlock =>
          rw [(branchElse_accepted h).2.2.2]
          exact (hblock _ _ elseBlock).trans (hblock t _ thenBlock)

mutual

theorem stands_generateOne : ∀ (t : SymbolTable) (out : Listing) (s : Stmt),
    (generateOne c t out s).error = none →
      List.Forall₂ Checked.Stands (checkedOne c t out s) ((s.code spelling).placed t.live)
  | t, out, .eval expr location, _ => .cons ⟨rfl, rfl⟩ .nil
  | t, out, .ret none location, _ => .nil
  | t, out, .ret (some expr) location, _ => .cons ⟨rfl, rfl⟩ .nil
  | t, out, .assign lhs rhs location, _ => .cons ⟨rfl, rfl⟩ (.cons ⟨rfl, rfl⟩ .nil)
  | t, out, .declare type ident none location, _ => .nil
  | t, out, .declare type ident (some init) location, _ => .cons ⟨rfl, rfl⟩ .nil
  | t, out, .branch cond thenBlock none location, h => by
      obtain ⟨-, he, -⟩ := branch_accepted h
      exact .cons ⟨rfl, rfl⟩ (stands_generate t.push _ thenBlock he)
  | t, out, .branch cond thenBlock (some elseBlock) location, h => by
      obtain ⟨-, he, he', -⟩ := branchElse_accepted h
      have first := stands_generate t.push _ thenBlock he
      have second := stands_generate _ _ elseBlock he'
      -- The first block is closed before the second one is opened.
      have hlive : (thenOutcome c t out cond thenBlock).table.live = t.live :=
        SymbolTable.live_congr (grown_generate c t.push _ thenBlock).close.frames
      rw [SymbolTable.live_push, hlive] at second
      exact .cons ⟨rfl, rfl⟩ (List.rel_append first second)

/-- Statements that are accepted are checked where the variables are in scope that are so in
generated code. -/
theorem stands_generate : ∀ (t : SymbolTable) (out : Listing) (ss : List Stmt),
    (generate c t out ss).error = none →
      List.Forall₂ Checked.Stands (checked c t out ss)
        (Code.placedAll t.live (Stmt.codes spelling ss))
  | _, _, [], _ => .nil
  | t, out, s :: rest, h => by
      obtain ⟨he, heq⟩ := cons_accepted h
      have first := stands_generateOne t out s he
      rw [heq] at h
      have others := stands_generate _ _ rest h
      rw [live_generateOne c spelling he] at others
      exact List.rel_append first others

end

end Body

/-- Every variable of the expression denotes in generated code what it was resolved to, but for the
one that the expression is the first value of: that one denotes itself. -/
structure Checked.Denotes (k : Checked) (p : Placed) : Prop where
  expr : p.expr = k.expr
  occurrences : ∀ name location, Expr.var name location ∈ k.expr.parts →
    ∃ n v, k.table.Resolves name location n v ∧
      (denoted name p.scope = some n ↔ k.initializes ≠ some name) ∧
      (k.initializes = some name → denoted name p.scope = some k.table.live.length)

theorem Checked.Stands.denotes {k : Checked} {p : Placed} {m : Option StateMachine} {τ : TypeSymbol}
    (h : k.Stands p) (hk : k.expr.infer k.table m = .ok τ) : k.Denotes p := by
  refine ⟨h.expr, fun name location hp => ?_⟩
  obtain ⟨v, hv⟩ := Expr.findVar_of_infer _ _ hk hp
  obtain ⟨n, hn⟩ := SymbolTable.resolves_of_findVar hv
  refine ⟨n, v, hn, ?_⟩
  have hnumber := hn.number
  have hlt := denoted_lt hnumber
  rw [h.scope]
  cases k.initializes with
  | none => exact ⟨iff_of_true hnumber (by simp), by simp⟩
  | some ident =>
      by_cases hident : ident = name
      · subst hident
        have hself : denoted ident (ident :: k.table.live) = some k.table.live.length := by
          rw [denoted, if_pos rfl]
        refine ⟨iff_of_false ?_ (by simp), fun _ => hself⟩
        intro heq
        have hsame := hself.symm.trans heq
        rw [Option.some.injEq] at hsame
        omega
      · have hother : denoted name (ident :: k.table.live) = some n := by
          rw [denoted, if_neg hident]
          exact hnumber
        exact ⟨iff_of_true hother (by simpa using hident), by simp [hident]⟩

namespace FuncDecl

theorem live_bindFormals {t : SymbolTable} {formals : List Formal}
    {parts : List TypeSymbol × List String} (h : (bindFormals t formals).1 = .ok parts) :
    (bindFormals t formals).2.live = (formals.map Formal.ident).reverse ++ t.live := by
  induction formals generalizing t parts with
  | nil => rfl
  | cons f fs ih =>
      unfold bindFormals at h ⊢
      split at h
      · cases h
      · split at h
        · cases h
        · rename_i type _ _ u hd
          obtain ⟨-, rfl⟩ := SymbolTable.declare_eq_ok.mp hd
          obtain ⟨rest, hrest, -⟩ := map_eq_ok.mp h
          rw [ih hrest, SymbolTable.live_bind, List.map_cons, List.reverse_cons, List.append_assoc]
          rfl

/-- The body of a function that compiles is the text of its statements, and every variable in it
denotes there the parameter or local variable that it was resolved to, unless it stands in the first
value of a local variable of its own name; then it denotes that variable, and not the one that it was
resolved to. -/
theorem compile_denotes {s : Site} {d : FuncDecl} {f : Func} {statements : List Stmt}
    (hc : (d.compile s).1 = .ok f) (hb : d.body? = some statements) :
    f.body = .generated
        (Code.writeAll { depth := 1 } (Stmt.codes s.table.spelling statements)).text ∧
      List.Forall₂ Checked.Denotes (d.checked s f.returnType)
        (Code.placedAll ((d.formals.map Formal.ident).reverse ++ s.table.live)
          (Stmt.codes s.table.spelling statements)) := by
  have hf := toFunc_of_compile hc
  obtain ⟨⟨parts, hparts⟩, hbody, htext⟩ := generated_toFunc hf hb
  refine ⟨htext, ?_⟩
  have hlive : (d.bodyTable s).live = (d.formals.map Formal.ident).reverse ++ s.table.live :=
    live_bindFormals hparts
  have hstands := Body.stands_generate _ s.table.spelling _ _ statements hbody
  have htypes := inferred_of_toFunc hf
  rw [hlive] at hstands
  rw [checked, hb] at htypes ⊢
  have hboth := (List.forall₂_and_left _ _).mpr ⟨htypes, hstands⟩
  refine hboth.imp ?_
  rintro k p ⟨⟨τ, hτ⟩, hk⟩
  exact hk.denotes hτ

/-- A function with a parameter `x` and, in a block, a local variable `x` whose first value is
`x + 1`. -/
def shadowing : FuncDecl where
  returnType := { ident := "int" }
  ident := "next"
  formals := [{ type := { ident := "int" }, ident := "x" }]
  statements := some [
    .branch (.binary (.var "x" {}) .lt (.literal (.int 8) {}) {}) [
      .declare { ident := "int" } "x" (some (.binary (.var "x" {}) .add (.literal (.int 1) {}) {})) {},
      .ret (some (.var "x" {})) {}] none {},
    .ret (some (.var "x" {})) {}]

/-- The function compiles, and its four expressions denote what they were resolved to but for `x + 1`. -/
theorem compile_denotes_shadowing : ∃ s₀ f, Session.start .prelude = .ok s₀ ∧
    (shadowing.compile { table := s₀.table }).1 = .ok f ∧
    List.Forall₂ Checked.Denotes (shadowing.checked { table := s₀.table } f.returnType)
      (Code.placedAll (["x"] ++ s₀.table.live)
        (Stmt.codes s₀.table.spelling (shadowing.statements.getD []))) := by
  have hrun : ((Session.start .prelude).toOption.bind fun s =>
      (shadowing.compile { table := s.table }).1.toOption).isSome = true := by decide +kernel
  obtain ⟨f, hrun⟩ := Option.isSome_iff_exists.mp hrun
  obtain ⟨s₀, hs₀, hf⟩ := Option.bind_eq_some_iff.mp hrun
  rw [toOption_eq_some] at hs₀ hf
  exact ⟨s₀, f, hs₀, hf, (compile_denotes hf rfl).2⟩

/-- In the second expression, the first value of the local variable, `x` is resolved to the parameter
and denotes the local variable. -/
theorem shadowing_misread : ∃ s₀ f, Session.start .prelude = .ok s₀ ∧
    (shadowing.compile { table := s₀.table }).1 = .ok f ∧
    f.body = .generated ("    if ((x < 8)) \x7b\n        int x = (x + 1);\n        return x;\n" ++
      "    \x7d\n    return x;\n") ∧
    ∃ k p v, (shadowing.checked { table := s₀.table } f.returnType)[1]? = some k ∧
      (Code.placedAll (["x"] ++ s₀.table.live)
        (Stmt.codes s₀.table.spelling (shadowing.statements.getD [])))[1]? = some p ∧
      p.expr = k.expr ∧ Expr.var "x" {} ∈ k.expr.parts ∧ k.table.Resolves "x" {} 0 v ∧
      denoted "x" p.scope = some 1 := by
  have hrun : ((Session.start .prelude).toOption.bind fun s =>
      (shadowing.compile { table := s.table }).1.toOption.map fun f =>
        (f.body, s.table.live, (shadowing.checked { table := s.table } f.returnType)[1]?.map fun k =>
          ((k.table.findVar "x" {}).toOption.isSome, k.table.live))) =
        some (.generated ("    if ((x < 8)) \x7b\n        int x = (x + 1);\n        return x;\n" ++
          "    \x7d\n    return x;\n"), [], some (true, ["x"])) := by decide +kernel
  obtain ⟨s₀, hs₀, hrun⟩ := Option.bind_eq_some_iff.mp hrun
  obtain ⟨f, hf, hrun⟩ := Option.map_eq_some_iff.mp hrun
  simp only [Prod.mk.injEq] at hrun
  obtain ⟨hbody, hlive, hsecond⟩ := hrun
  obtain ⟨k, hk, hchecked⟩ := Option.map_eq_some_iff.mp hsecond
  obtain ⟨hfound, hscope⟩ := Prod.mk.inj hchecked
  obtain ⟨v, hv⟩ := Option.isSome_iff_exists.mp hfound
  obtain ⟨n, hn⟩ := SymbolTable.resolves_of_findVar (toOption_eq_some.mp hv)
  have hzero : n = 0 := by
    have := hn.number
    rw [hscope] at this
    exact (Option.some.inj this).symm
  subst hzero
  rw [toOption_eq_some] at hs₀ hf
  have hexpr : k.expr = .binary (.var "x" {}) .add (.literal (.int 1) {}) {} := by
    cases hk
    rfl
  refine ⟨s₀, f, hs₀, hf, hbody, k, ⟨k.expr, "x" :: "x" :: s₀.table.live⟩, v, hk, ?_, rfl, ?_, hn, ?_⟩
  · rw [hexpr]
    rfl
  · rw [hexpr]
    simp [Expr.parts]
  · rw [hlive]
    rfl

end FuncDecl

end Coherence
