import Coherence.Proofs.Invariant
/-!
# Failures that concern one declaration

A step is `Harmless` if its failure, should it fail, concerns one declaration only: then it is neither
a frame stack out of balance nor a `Breach`. Expressions and bodies are checked harmlessly on every
table whose symbols are found under their own kinds, functions compile harmlessly there, and so do
types whose fields were not looked at before.
-/

namespace Coherence

/-- The step succeeds, or fails in a way that concerns one declaration only. -/
def Harmless {α : Type} (r : Except CompileError α) : Prop := ∀ e, r = .error e → e.isFatal = false

namespace Harmless

variable {α β : Type}

theorem ok (a : α) : Harmless (.ok a) := fun _ h => by cases h

theorem error {e : CompileError} (h : e.isFatal = false) : Harmless (.error e : Except _ α) := by
  rintro _ ⟨⟩
  exact h

theorem bind {x : Except CompileError α} {f : α → Except CompileError β} (hx : Harmless x)
    (hf : ∀ a, x = .ok a → Harmless (f a)) : Harmless (x >>= f) := by
  intro e h
  rcases bind_eq_error.mp h with h | ⟨a, ha, h⟩
  · exact hx e h
  · exact hf a ha e h

theorem map {x : Except CompileError α} (f : α → β) (hx : Harmless x) : Harmless (x.map f) :=
  fun e h => hx e (map_eq_error.mp h)

end Harmless

/-! ### Lookups -/

namespace SymbolTable

variable (t : SymbolTable)

theorem harmless_find (name : String) (kind : SymbolKind) (location : Location) :
    Harmless (t.find name kind location) := by
  unfold find
  split
  · exact .ok _
  · exact .error rfl

theorem harmless_resolveType (name : String) (location : Location) :
    Harmless (t.resolveType name location) := by
  unfold resolveType
  split
  · exact .ok _
  · exact .error rfl

theorem harmless_declare (s : Symbol) : Harmless (t.declare s) := by
  unfold declare
  split
  · exact .error rfl
  · exact .ok _

variable {t}

theorem key_of_find (h : t.Keyed) {name : String} {kind : SymbolKind} {location : Location}
    {s : Symbol} (hs : t.find name kind location = .ok s) : s.key = (name, kind) := by
  unfold find at hs
  split at hs
  · rename_i hl
    cases hs
    exact h.key_of_lookup hl
  · cases hs

theorem kind_of_find (h : t.Keyed) {name : String} {kind : SymbolKind} {location : Location}
    {s : Symbol} (hs : t.find name kind location = .ok s) : s.kind = kind :=
  congrArg Prod.snd (key_of_find h hs)

theorem harmless_findFunc (h : t.Keyed) (name : String) (location : Location) :
    Harmless (t.findFunc name location) := by
  refine (t.harmless_find _ _ _).bind fun s hs => ?_
  have hkind := kind_of_find h hs
  cases s with
  | func f => exact .ok f
  | type τ => cases hkind
  | var v => cases hkind

theorem harmless_findVar (h : t.Keyed) (name : String) (location : Location) :
    Harmless (t.findVar name location) := by
  refine (t.harmless_find _ _ _).bind fun s hs => ?_
  have hkind := kind_of_find h hs
  cases s with
  | var v => exact .ok v
  | type τ => cases hkind
  | func f => cases hkind

end SymbolTable

theorem harmless_expectType (expected found : TypeSymbol) (location : Location) :
    Harmless (expectType expected found location) := by
  unfold expectType
  split
  · exact .ok _
  · exact .error rfl

/-- The machine finds all its functions. -/
theorem StateMachine.findFunc_of_valid {m : StateMachine} (h : m.roster.Valid) (ident : String) :
    ∃ found, m.findFunc ident = .ok found := by
  obtain ⟨found, hfound⟩ := h.find ident
  refine ⟨found, ?_⟩
  rw [findFunc, hfound]
  rfl

/-! ### Expressions and bodies -/

section body

variable {t : SymbolTable} {m : Option StateMachine}

theorem harmless_callee (ht : t.Keyed) (hm : ∀ machine, m = some machine → machine.roster.Valid)
    (ident : String) (location : Location) : Harmless (callee t m ident location) := by
  refine Harmless.bind ?_ fun own _ => ?_
  · unfold ownFunc
    split
    · rename_i machine
      obtain ⟨found, hfound⟩ := StateMachine.findFunc_of_valid (hm machine rfl) ident
      rw [hfound]
      exact .ok _
    · exact .ok _
  · cases own with
    | some f => exact .ok f
    | none => exact SymbolTable.harmless_findFunc ht ident location

theorem harmless_result (op : BinaryOp) (operand : TypeSymbol) (location : Location) :
    Harmless (op.result t operand location) := by
  unfold BinaryOp.result
  split
  · refine (t.harmless_resolveType _ _).bind fun type _ => ?_
    exact (harmless_expectType _ _ _).bind fun _ _ => .ok _
  · exact t.harmless_resolveType _ _

mutual

theorem harmless_infer (ht : t.Keyed) (hm : ∀ machine, m = some machine → machine.roster.Valid) :
    ∀ e : Expr, Harmless (e.infer t m)
  | .var ident location => (SymbolTable.harmless_findVar ht ident location).map _
  | .literal value location => t.harmless_resolveType _ _
  | .call ident args location => by
      refine (harmless_callee ht hm ident location).bind fun f _ => ?_
      split
      · exact (harmless_checkArgs ht hm args f.params).bind fun _ _ => .ok _
      · exact .error rfl
  | .binary lhs op rhs location => by
      refine (harmless_infer ht hm lhs).bind fun left _ => ?_
      refine (harmless_infer ht hm rhs).bind fun right _ => ?_
      exact (harmless_expectType _ _ _).bind fun _ _ => harmless_result op left location

theorem harmless_checkArgs (ht : t.Keyed)
    (hm : ∀ machine, m = some machine → machine.roster.Valid) :
    ∀ (args : List Expr) (params : List Param), Harmless (Expr.checkArgs t m args params)
  | [], _ => .ok _
  | _ :: _, [] => .ok _
  | arg :: args, param :: params => by
      refine (harmless_infer ht hm arg).bind fun found _ => ?_
      exact (harmless_expectType _ _ _).bind fun _ _ => harmless_checkArgs ht hm args params

end

variable {c : BodyContext}

namespace BodyContext

theorem harmless_checkReturn (ht : t.Keyed)
    (hm : ∀ machine, c.machine = some machine → machine.roster.Valid) (location : Location)
    (value : Option Expr) : Harmless (c.checkReturn t location value) := by
  cases value with
  | none =>
      rw [checkReturn]
      split
      · exact .ok _
      · exact .error rfl
  | some value =>
      refine (harmless_infer ht hm value).bind fun found _ => ?_
      split
      · exact .error rfl
      · exact harmless_expectType _ _ _

theorem harmless_checkAssign (ht : t.Keyed)
    (hm : ∀ machine, c.machine = some machine → machine.roster.Valid) (lhs rhs : Expr)
    (location : Location) : Harmless (c.checkAssign t lhs rhs location) := by
  unfold checkAssign
  split
  · refine (harmless_infer ht hm _).bind fun left _ => ?_
    refine (harmless_infer ht hm rhs).bind fun right _ => ?_
    exact harmless_expectType _ _ _
  · exact .error rfl

theorem harmless_checkCond (ht : t.Keyed)
    (hm : ∀ machine, c.machine = some machine → machine.roster.Valid) (cond : Expr) :
    Harmless (c.checkCond t cond) := by
  refine (harmless_infer ht hm cond).bind fun found _ => ?_
  refine (t.harmless_resolveType _ _).bind fun bool _ => ?_
  exact harmless_expectType _ _ _

theorem harmless_declareLocal (ht : t.Keyed)
    (hm : ∀ machine, c.machine = some machine → machine.roster.Valid) (type : TypeName)
    (ident : String) (init : Option Expr) (location : Location) :
    Harmless (c.declareLocal t type ident init location) := by
  refine (t.harmless_resolveType _ _).bind fun symbol _ => ?_
  refine Harmless.bind ?_ fun _ _ => ?_
  · cases init with
    | none => exact .ok _
    | some init => exact (harmless_infer ht hm init).bind fun _ _ => harmless_expectType _ _ _
  · exact (t.harmless_declare _).bind fun _ _ => .ok _

end BodyContext

namespace Body

theorem harmless_emit {out : Listing} {line : String} {check : Except CompileError Unit}
    (h : Harmless check) : ∀ e, (emit t out line check).error = some e → e.isFatal = false := by
  cases check with
  | ok _ => simp [emit]
  | error e =>
      rintro _ ⟨⟩
      exact h e rfl

/-- The frames of a block are keyed as those around it are. -/
theorem keyed_block (ht : t.Keyed) (out : Listing) (ss : List Stmt) :
    (generate c t.push out ss).table.close.Keyed :=
  ht.grown (kept_block (grown_generate c t.push out ss))

mutual

theorem harmless_generateOne (hm : ∀ machine, c.machine = some machine → machine.roster.Valid) :
    ∀ (t : SymbolTable) (out : Listing) (s : Stmt), t.Keyed →
      ∀ e, (generateOne c t out s).error = some e → e.isFatal = false
  | t, out, .eval expr location, ht => by
      exact harmless_emit ((harmless_infer ht hm expr).map _)
  | t, out, .ret value location, ht => by
      exact harmless_emit (c.harmless_checkReturn ht hm location value)
  | t, out, .assign lhs rhs location, ht => by
      exact harmless_emit (c.harmless_checkAssign ht hm lhs rhs location)
  | t, out, .declare type ident init location, ht => by
      intro e h
      unfold generateOne at h
      split at h
      · cases h
      · rename_i hd
        cases h
        exact c.harmless_declareLocal ht hm type ident init location _ hd
  | t, out, .branch cond thenBlock none location, ht => by
      have first := harmless_generate hm t.push (out.line (thenText cond)).indent thenBlock ht.push
      intro e h
      unfold generateOne at h
      split at h
      · rename_i hc
        cases h
        exact c.harmless_checkCond ht hm cond _ hc
      · dsimp only at h
        split at h
        · exact first e h
        · rename_i he
          rw [he] at h
          cases h
  | t, out, .branch cond thenBlock (some elseBlock) location, ht => by
      have first := harmless_generate hm t.push (out.line (thenText cond)).indent thenBlock ht.push
      intro e h
      unfold generateOne at h
      split at h
      · rename_i hc
        cases h
        exact c.harmless_checkCond ht hm cond _ hc
      · dsimp only at h
        split at h
        · exact first e h
        · split at h
          · exact harmless_generate hm _ _ elseBlock (keyed_block ht _ thenBlock).push e h
          · rename_i he
            rw [he] at h
            cases h

theorem harmless_generate (hm : ∀ machine, c.machine = some machine → machine.roster.Valid) :
    ∀ (t : SymbolTable) (out : Listing) (ss : List Stmt), t.Keyed →
      ∀ e, (generate c t out ss).error = some e → e.isFatal = false
  | t, out, [], ht => by simp [generate]
  | t, out, s :: rest, ht => by
      have first := harmless_generateOne hm t out s ht
      have hgrown := grown_generateOne c t out s
      intro e h
      unfold generate at h
      dsimp only at h
      split at h
      · exact first e h
      · exact harmless_generate hm _ _ rest (ht.grown hgrown) e h

end

end Body

end body

/-! ### Functions -/

theorem Param.zip?_isSome : ∀ {types : List TypeSymbol} {names : List String},
    types.length = names.length → ∃ params, Param.zip? types names = some params
  | [], [], _ => ⟨[], rfl⟩
  | [], _ :: _, h => by cases h
  | _ :: _, [], h => by cases h
  | type :: _, name :: _, h => by
      obtain ⟨params, hp⟩ := zip?_isSome (Nat.succ.inj h)
      exact ⟨⟨type, name⟩ :: params, by simp [zip?, hp]⟩

namespace FuncDecl

theorem harmless_bindFormals (t : SymbolTable) (formals : List Formal) :
    Harmless (bindFormals t formals).1 := by
  induction formals generalizing t with
  | nil => exact .ok _
  | cons f fs ih =>
      unfold bindFormals
      split
      · rename_i hr
        exact .error (t.harmless_resolveType _ _ _ hr)
      · split
        · rename_i hd
          exact .error (t.harmless_declare _ _ hd)
        · exact (ih _).map _

theorem length_bindFormals {t : SymbolTable} {formals : List Formal} {types : List TypeSymbol}
    {names : List String} (h : (bindFormals t formals).1 = .ok (types, names)) :
    types.length = names.length := by
  induction formals generalizing t types names with
  | nil =>
      cases h
      rfl
  | cons f fs ih =>
      unfold bindFormals at h
      split at h
      · cases h
      · split at h
        · cases h
        · obtain ⟨⟨types', names'⟩, hrest, heq⟩ := map_eq_ok.mp h
          cases heq
          simp [ih hrest]

variable {c : BodyContext} {t : SymbolTable}

theorem harmless_compileBody (ht : t.Keyed)
    (hm : ∀ machine, c.machine = some machine → machine.roster.Valid)
    (body : Option (List Stmt)) : Harmless (compileBody c t body).1 := by
  cases body with
  | none => exact .ok _
  | some statements =>
      refine Harmless.map _ ?_
      split
      · rename_i e he
        exact .error (Body.harmless_generate hm t _ statements ht e he)
      · exact .ok _

theorem harmless_compileParts (ht : t.Keyed)
    (hm : ∀ machine, c.machine = some machine → machine.roster.Valid) (d : FuncDecl) :
    Harmless (d.compileParts c t).1 := by
  have hb := harmless_bindFormals t d.formals
  have hgrown := grown_bindFormals t d.formals
  unfold compileParts
  split
  · rename_i he
    rw [he] at hb
    exact .error (hb _ rfl)
  · rename_i he
    rw [he] at hgrown
    exact (harmless_compileBody (ht.grown hgrown) hm d.body?).map _

theorem aligned_compileParts {d : FuncDecl} {parts : FuncParts}
    (h : (d.compileParts c t).1 = .ok parts) : parts.types.length = parts.names.length := by
  unfold compileParts at h
  split at h
  · cases h
  · rename_i hb
    obtain ⟨body, -, rfl⟩ := map_eq_ok.mp h
    exact length_bindFormals (congrArg Prod.fst hb)

theorem harmless_toFunc {s : Site} (ht : s.table.Keyed)
    (hm : ∀ machine, s.machine = some machine → machine.roster.Valid) (d : FuncDecl) :
    Harmless (d.toFunc s).1 := by
  unfold toFunc
  split
  · rename_i hr
    exact .error (s.table.harmless_resolveType _ _ _ hr)
  · refine (harmless_compileParts ht.push hm d).bind fun parts hparts => ?_
    obtain ⟨params, hp⟩ := Param.zip?_isSome (aligned_compileParts hparts)
    simp only [assemble, hp]
    exact .ok _

end FuncDecl

theorem Site.harmless_addFunc (s : Site) (f : Func) : Harmless (s.addFunc f) := by
  unfold addFunc
  split
  · refine Harmless.map _ ?_
    unfold StateMachine.addFunc
    split
    · exact .ok _
    · exact .error rfl
  · exact (s.table.harmless_declare _).map _

theorem FuncDecl.harmless_compile {s : Site} (ht : s.table.Keyed)
    (hm : ∀ machine, s.machine = some machine → machine.roster.Valid) (d : FuncDecl) :
    Harmless (d.compile s).1 := by
  obtain ⟨u, -, -, ⟨e, hc, h | ⟨f, -, h⟩⟩ | ⟨f, -, ⟨-, -, hc⟩ | ⟨m, m', -, -, hc⟩⟩⟩ :=
    compile_cases s d <;> rw [hc]
  · exact .error (d.harmless_toFunc ht hm e h)
  · exact .error (Site.harmless_addFunc _ f e h)
  · exact .ok f
  · exact .ok f

/-! ### Types -/

namespace TypeDecl

variable {type : TypeSymbol}

/-- Fields are looked at from the first to the last, each of them once. -/
theorem harmless_resolveFields (t : SymbolTable) (position : Nat) (fields : List Field)
    (h : (t.foundFields type).length = position) :
    Harmless (resolveFields type t position fields).1 := by
  induction fields generalizing t position with
  | nil => exact .ok _
  | cons f fs ih =>
      unfold resolveFields
      split
      · rename_i hr
        exact .error (t.harmless_resolveType _ _ _ hr)
      · rename_i found _
        have hfield : t.resolveField type position f.ident found.asFieldType = .ok
            { t with fieldTypes :=
              (type.key, t.foundFields type ++ [found.asFieldType]) :: t.fieldTypes } := by
          simp [SymbolTable.resolveField, h]
        rw [hfield]
        dsimp only
        split
        · rename_i hd
          exact .error (SymbolTable.harmless_declare _ _ _ hd)
        · rename_i hd
          obtain ⟨-, rfl⟩ := SymbolTable.declare_eq_ok.mp hd
          refine ih _ _ ?_
          simp [SymbolTable.foundFields, SymbolTable.bind, ← h]

theorem harmless_bindValues (t : SymbolTable) (values : List String) :
    Harmless (bindValues type t values).1 := by
  induction values generalizing t with
  | nil => exact .ok _
  | cons v vs ih =>
      unfold bindValues
      split
      · rename_i hd
        exact .error (t.harmless_declare _ _ hd)
      · exact ih _

/-- A type without field types on record is compiled without looking at a field twice. -/
theorem harmless_compileDeclared {s : Site} (h : ¬s.table.Records type.key) :
    Harmless (compileDeclared s type).1 := by
  have hnone : s.table.fieldTypes.lookup type.key = none := Decidable.not_not.mp h
  have hcheck : Harmless (checkMembers type s.table.push).1 := by
    unfold checkMembers
    split
    · refine harmless_resolveFields _ 0 _ ?_
      simp [SymbolTable.foundFields, SymbolTable.push, hnone]
    · exact harmless_bindValues _ _
    · exact .ok _
    · exact .ok _
  unfold compileDeclared
  split
  · rename_i he
    rw [he] at hcheck
    exact .error (hcheck _ rfl)
  · exact .ok _

end TypeDecl

end Coherence
