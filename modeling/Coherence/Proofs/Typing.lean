import Coherence.Proofs.Frames
/-!
# Typing of function bodies

The rules by which a function body is well typed, stated without the checker: a judgement on
expressions (`HasType`) and one on statements (`Accepts`), each in a scope. Two types are the same
if they have the same key, that is if they were declared at the same place.

`Body.generate` accepts exactly the bodies that can be derived (`generate_succeeds_iff`). The
checker runs on a symbol table with marks and field types; of all these the rules see the symbols of
the open frames only (`SymbolTable.scope`).
-/

namespace Coherence

/-- The symbols of the open frames, the innermost frame first. -/
abbrev Scope := List (List ((String × SymbolKind) × Symbol))

/-- The symbols that a symbol table has in scope. -/
def SymbolTable.scope (t : SymbolTable) : Scope := t.frames.map Frame.symbols

/-- The innermost frame that binds the name to a symbol of the kind binds it to this one. -/
inductive Scope.Binds (name : String) (kind : SymbolKind) : Scope → Symbol → Prop
  | here {frame Γ s} : frame.lookup (name, kind) = some s → Binds name kind (frame :: Γ) s
  | outside {frame Γ s} :
      frame.lookup (name, kind) = none → Binds name kind Γ s → Binds name kind (frame :: Γ) s

namespace SymbolTable

theorem lookup_eq_some_iff {t : SymbolTable} {name : String} {kind : SymbolKind} {s : Symbol} :
    t.lookup name kind = some s ↔ t.scope.Binds name kind s := by
  unfold lookup scope
  induction t.frames with
  | nil =>
      constructor
      · intro h
        cases h
      · rintro ⟨⟩
  | cons f fs ih =>
      rw [List.findSome?_cons, List.map_cons]
      constructor
      · intro h
        cases hf : f.find? name kind with
        | some s' =>
            rw [hf] at h
            cases h
            exact .here hf
        | none =>
            rw [hf] at h
            exact .outside hf (ih.mp h)
      · intro h
        cases h with
        | here hf => rw [Frame.find?, hf]
        | outside hf h =>
            rw [Frame.find?, hf]
            exact ih.mpr h

theorem find_eq_ok {t : SymbolTable} {name : String} {kind : SymbolKind} {location : Location}
    {s : Symbol} : t.find name kind location = .ok s ↔ t.scope.Binds name kind s := by
  rw [← lookup_eq_some_iff]
  unfold find
  cases t.lookup name kind <;> simp

theorem findVar_eq_ok {t : SymbolTable} {name : String} {location : Location} {v : Var} :
    t.findVar name location = .ok v ↔ t.scope.Binds name .var (.var v) := by
  simp only [findVar, bind_eq_ok, find_eq_ok]
  constructor
  · rintro ⟨s, hs, h⟩
    cases s <;> cases h
    exact hs
  · intro h
    exact ⟨_, h, rfl⟩

theorem findFunc_eq_ok {t : SymbolTable} {name : String} {location : Location} {f : Func} :
    t.findFunc name location = .ok f ↔ t.scope.Binds name .func (.func f) := by
  simp only [findFunc, bind_eq_ok, find_eq_ok]
  constructor
  · rintro ⟨s, hs, h⟩
    cases s <;> cases h
    exact hs
  · intro h
    exact ⟨_, h, rfl⟩

theorem resolveType_eq_ok {t : SymbolTable} {name : String} {location : Location}
    {τ : TypeSymbol} : t.resolveType name location = .ok τ ↔ t.scope.Binds name .type (.type τ) := by
  rw [← lookup_eq_some_iff]
  unfold resolveType findType?
  cases t.lookup name .type with
  | none => simp
  | some s => cases s <;> simp

end SymbolTable

/-! ### Expressions -/

/-- The function that a call means: that of the machine if the machine has one of the name so far,
else the innermost one in scope. -/
inductive Calls (Γ : Scope) (m : Option StateMachine) (ident : String) : Func → Prop
  | own {machine f} : m = some machine → machine.findFunc ident = .ok (some f) → Calls Γ m ident f
  | global {f} : (∀ machine, m = some machine → machine.findFunc ident = .ok none) →
      Γ.Binds ident .func (.func f) → Calls Γ m ident f

mutual

/-- The expression has the type in the scope, inside the machine if there is one. -/
inductive HasType (Γ : Scope) (m : Option StateMachine) : Expr → TypeSymbol → Prop
  | var {ident location v} :
      Γ.Binds ident .var (.var v) → HasType Γ m (.var ident location) v.type
  | int {n location τ} :
      Γ.Binds "int" .type (.type τ) → HasType Γ m (.literal (.int n) location) τ
  | bool {b location τ} :
      Γ.Binds "bool" .type (.type τ) → HasType Γ m (.literal (.bool b) location) τ
  | string {s location τ} :
      Γ.Binds "string" .type (.type τ) → HasType Γ m (.literal (.string s) location) τ
  | call {ident args location f} : Calls Γ m ident f →
      HaveTypes Γ m args (f.params.map Param.type) →
      HasType Γ m (.call ident args location) f.returnType
  | arithmetic {lhs op rhs location σ τ int} : op ∈ [BinaryOp.add, .sub, .mul] →
      HasType Γ m lhs σ → HasType Γ m rhs τ → σ.key = τ.key →
      Γ.Binds "int" .type (.type int) → int.key = σ.key →
      HasType Γ m (.binary lhs op rhs location) int
  | logical {lhs op rhs location σ τ bool} : op ∈ [BinaryOp.and, .or] →
      HasType Γ m lhs σ → HasType Γ m rhs τ → σ.key = τ.key →
      Γ.Binds "bool" .type (.type bool) → bool.key = σ.key →
      HasType Γ m (.binary lhs op rhs location) bool
  | comparison {lhs op rhs location σ τ bool} :
      op ∈ [BinaryOp.eq, .notEq, .lt, .gt, .ltEq, .gtEq] →
      HasType Γ m lhs σ → HasType Γ m rhs τ → σ.key = τ.key →
      Γ.Binds "bool" .type (.type bool) → HasType Γ m (.binary lhs op rhs location) bool

/-- The expressions are as many as the types, and have them. -/
inductive HaveTypes (Γ : Scope) (m : Option StateMachine) : List Expr → List TypeSymbol → Prop
  | nil : HaveTypes Γ m [] []
  | cons {e es σ τ τs} : HasType Γ m e σ → τ.key = σ.key → HaveTypes Γ m es τs →
      HaveTypes Γ m (e :: es) (τ :: τs)

end

theorem HaveTypes.length_eq {Γ : Scope} {m : Option StateMachine} :
    ∀ {es : List Expr} {τs : List TypeSymbol}, HaveTypes Γ m es τs → es.length = τs.length
  | _, _, .nil => rfl
  | _, _, .cons _ _ h => congrArg Nat.succ h.length_eq

theorem expectType_eq_ok {expected found : TypeSymbol} {location : Location} {u : Unit} :
    expectType expected found location = .ok u ↔ expected.key = found.key := by
  unfold expectType TypeSymbol.same
  by_cases h : expected.key = found.key <;> simp [h]

section infer

variable (t : SymbolTable) (m : Option StateMachine)

theorem callee_eq_ok {ident : String} {location : Location} {f : Func} :
    callee t m ident location = .ok f ↔ Calls t.scope m ident f := by
  simp only [callee, bind_eq_ok]
  constructor
  · rintro ⟨own, howm, h⟩
    cases own with
    | some g =>
        cases h
        cases m with
        | none => cases howm
        | some machine => exact .own rfl howm
    | none =>
        refine .global ?_ (SymbolTable.findFunc_eq_ok.mp h)
        rintro machine rfl
        exact howm
  · intro h
    cases h with
    | own hm hf =>
        subst hm
        exact ⟨_, hf, rfl⟩
    | global hnone hf =>
        refine ⟨none, ?_, SymbolTable.findFunc_eq_ok.mpr hf⟩
        cases m with
        | none => rfl
        | some machine => exact hnone machine rfl

theorem infer_literal_eq_ok {value : Literal} {location : Location} {τ : TypeSymbol} :
    t.resolveType value.typeName location = .ok τ ↔
      HasType t.scope m (.literal value location) τ := by
  rw [SymbolTable.resolveType_eq_ok]
  constructor
  · intro h
    cases value with
    | int n => exact .int h
    | bool b => exact .bool h
    | string s => exact .string h
  · intro h
    cases h with
    | int h => exact h
    | bool h => exact h
    | string h => exact h

theorem result_eq_ok {lhs rhs : Expr} {op : BinaryOp} {location : Location} {σ τ ρ : TypeSymbol}
    (hl : HasType t.scope m lhs σ) (hr : HasType t.scope m rhs τ) (hk : σ.key = τ.key)
    (h : op.result t σ location = .ok ρ) : HasType t.scope m (.binary lhs op rhs location) ρ := by
  unfold BinaryOp.result at h
  split at h
  · rename_i name hname
    simp only [bind_eq_ok, SymbolTable.resolveType_eq_ok, expectType_eq_ok] at h
    obtain ⟨ρ', hb, _, hkey, hρ⟩ := h
    cases hρ
    cases op <;> cases hname
    · exact .arithmetic (by simp) hl hr hk hb hkey
    · exact .arithmetic (by simp) hl hr hk hb hkey
    · exact .arithmetic (by simp) hl hr hk hb hkey
    · exact .logical (by simp) hl hr hk hb hkey
    · exact .logical (by simp) hl hr hk hb hkey
  · rename_i hname
    rw [SymbolTable.resolveType_eq_ok] at h
    refine .comparison ?_ hl hr hk h
    cases op <;> cases hname <;> simp

theorem result_of_operand {op : BinaryOp} {location : Location} {name : String}
    {σ ρ : TypeSymbol} (hname : op.operandName = some name)
    (hb : t.scope.Binds name .type (.type ρ)) (hkey : ρ.key = σ.key) :
    op.result t σ location = .ok ρ := by
  simp only [BinaryOp.result, hname, bind_eq_ok, expectType_eq_ok]
  exact ⟨ρ, SymbolTable.resolveType_eq_ok.mpr hb, (), hkey, rfl⟩

mutual

/-- Every type that the checker finds can be derived. -/
theorem hasType_of_infer : ∀ {e : Expr} {τ : TypeSymbol},
    e.infer t m = .ok τ → HasType t.scope m e τ
  | .var ident location, τ, h => by
      obtain ⟨v, hv, rfl⟩ := map_eq_ok.mp h
      exact .var (SymbolTable.findVar_eq_ok.mp hv)
  | .literal value location, τ, h => (infer_literal_eq_ok t m).mp h
  | .call ident args location, τ, h => by
      simp only [Expr.infer, bind_eq_ok] at h
      obtain ⟨f, hf, h⟩ := h
      split at h
      · rename_i hlen
        simp only [bind_eq_ok] at h
        obtain ⟨_, hargs, hτ⟩ := h
        cases hτ
        exact .call ((callee_eq_ok t m).mp hf) (haveTypes_of_checkArgs hlen.symm hargs)
      · cases h
  | .binary lhs op rhs location, τ, h => by
      simp only [Expr.infer, bind_eq_ok, expectType_eq_ok] at h
      obtain ⟨σ, hl, τ', hr, _, hk, h⟩ := h
      exact result_eq_ok t m (hasType_of_infer hl) (hasType_of_infer hr) hk h

theorem haveTypes_of_checkArgs : ∀ {args : List Expr} {params : List Param},
    args.length = params.length → Expr.checkArgs t m args params = .ok () →
      HaveTypes t.scope m args (params.map Param.type)
  | [], [], _, _ => .nil
  | [], _ :: _, hlen, _ => by cases hlen
  | _ :: _, [], hlen, _ => by cases hlen
  | arg :: args, param :: params, hlen, h => by
      simp only [Expr.checkArgs, bind_eq_ok, expectType_eq_ok] at h
      obtain ⟨σ, harg, _, hk, h⟩ := h
      exact .cons (hasType_of_infer harg) hk (haveTypes_of_checkArgs (Nat.succ.inj hlen) h)

end

mutual

/-- The checker finds every type that can be derived. -/
theorem infer_of_hasType : ∀ {e : Expr} {τ : TypeSymbol},
    HasType t.scope m e τ → e.infer t m = .ok τ
  | .var ident location, _, h => by
      cases h with
      | var hv => exact map_eq_ok.mpr ⟨_, SymbolTable.findVar_eq_ok.mpr hv, rfl⟩
  | .literal value location, _, h => (infer_literal_eq_ok t m).mpr h
  | .call ident args location, _, h => by
      cases h with
      | call hf hargs =>
          have hlen := hargs.length_eq
          rw [List.length_map] at hlen
          simp only [Expr.infer, bind_eq_ok]
          refine ⟨_, (callee_eq_ok t m).mpr hf, ?_⟩
          rw [if_pos hlen.symm]
          exact bind_eq_ok.mpr ⟨(), checkArgs_of_haveTypes hargs, rfl⟩
  | .binary lhs op rhs location, _, h => by
      simp only [Expr.infer, bind_eq_ok, expectType_eq_ok]
      cases h with
      | @arithmetic _ _ _ _ σ τ _ hop hl hr hk hb hkey =>
          refine ⟨σ, infer_of_hasType hl, τ, infer_of_hasType hr, (), hk, ?_⟩
          have hname : op.operandName = some intName := by cases op <;> first | rfl | simp at hop
          exact result_of_operand t hname hb hkey
      | @logical _ _ _ _ σ τ _ hop hl hr hk hb hkey =>
          refine ⟨σ, infer_of_hasType hl, τ, infer_of_hasType hr, (), hk, ?_⟩
          have hname : op.operandName = some boolName := by cases op <;> first | rfl | simp at hop
          exact result_of_operand t hname hb hkey
      | @comparison _ _ _ _ σ τ _ hop hl hr hk hb =>
          refine ⟨σ, infer_of_hasType hl, τ, infer_of_hasType hr, (), hk, ?_⟩
          have hname : op.operandName = none := by cases op <;> first | rfl | simp at hop
          rw [BinaryOp.result, hname]
          exact SymbolTable.resolveType_eq_ok.mpr hb

theorem checkArgs_of_haveTypes : ∀ {args : List Expr} {params : List Param},
    HaveTypes t.scope m args (params.map Param.type) → Expr.checkArgs t m args params = .ok ()
  | [], _, _ => rfl
  | arg :: args, [], h => by cases h
  | arg :: args, param :: params, h => by
      cases h with
      | cons harg hk h =>
          simp only [Expr.checkArgs, bind_eq_ok, expectType_eq_ok]
          exact ⟨_, infer_of_hasType harg, (), hk, checkArgs_of_haveTypes h⟩

end

theorem infer_eq_ok {e : Expr} {τ : TypeSymbol} :
    e.infer t m = .ok τ ↔ HasType t.scope m e τ :=
  ⟨hasType_of_infer t m, infer_of_hasType t m⟩

end infer

/-! ### Statements -/

mutual

/-- The statement is accepted in the scope `Γ`, in a function of the machine `m` that returns `ρ`,
and leaves the scope after it. -/
inductive Accepts (m : Option StateMachine) (ρ : TypeSymbol) : Scope → Stmt → Scope → Prop
  | eval {Γ e location τ} : HasType Γ m e τ → Accepts m ρ Γ (.eval e location) Γ
  | ret {Γ location} : ρ.kind = .void → Accepts m ρ Γ (.ret none location) Γ
  | retValue {Γ e location τ} : HasType Γ m e τ → ρ.kind ≠ .void → ρ.key = τ.key →
      Accepts m ρ Γ (.ret (some e) location) Γ
  | assign {Γ ident place rhs location σ τ} : HasType Γ m (.var ident place) σ →
      HasType Γ m rhs τ → σ.key = τ.key → Accepts m ρ Γ (.assign (.var ident place) rhs location) Γ
  | declare {frame Γ type ident location τ} :
      Scope.Binds type.ident .type (frame :: Γ) (.type τ) → frame.lookup (ident, .var) = none →
      Accepts m ρ (frame :: Γ) (.declare type ident none location)
        ((((ident, .var), .var ⟨ident, location, τ⟩) :: frame) :: Γ)
  | declareInit {frame Γ type ident init location σ τ} :
      Scope.Binds type.ident .type (frame :: Γ) (.type τ) →
      HasType (frame :: Γ) m init σ → τ.key = σ.key → frame.lookup (ident, .var) = none →
      Accepts m ρ (frame :: Γ) (.declare type ident (some init) location)
        ((((ident, .var), .var ⟨ident, location, τ⟩) :: frame) :: Γ)
  | branch {Γ cond thenBlock location σ bool Δ} : HasType Γ m cond σ →
      Γ.Binds "bool" .type (.type bool) → bool.key = σ.key → AcceptsAll m ρ ([] :: Γ) thenBlock Δ →
      Accepts m ρ Γ (.branch cond thenBlock none location) Γ
  | branchElse {Γ cond thenBlock elseBlock location σ bool Δ Δ'} : HasType Γ m cond σ →
      Γ.Binds "bool" .type (.type bool) → bool.key = σ.key → AcceptsAll m ρ ([] :: Γ) thenBlock Δ →
      AcceptsAll m ρ ([] :: Γ) elseBlock Δ' →
      Accepts m ρ Γ (.branch cond thenBlock (some elseBlock) location) Γ

/-- The statements are accepted one after another, each in the scope that those before it leave. -/
inductive AcceptsAll (m : Option StateMachine) (ρ : TypeSymbol) : Scope → List Stmt → Scope → Prop
  | nil {Γ} : AcceptsAll m ρ Γ [] Γ
  | cons {Γ Δ Θ s ss} :
      Accepts m ρ Γ s Δ → AcceptsAll m ρ Δ ss Θ → AcceptsAll m ρ Γ (s :: ss) Θ

end

namespace SymbolTable

theorem scope_push (t : SymbolTable) (owner : Option String) :
    (t.push owner).scope = [] :: t.scope := rfl

theorem scope_eq_cons (t : SymbolTable) :
    t.scope = t.top.symbols :: t.outer.map Frame.symbols := rfl

/-- A block that is closed leaves the scope of the statement that it belongs to. -/
theorem scope_close {t u : SymbolTable} (h : Grown none Untouched t.push u) :
    u.close.scope = t.scope := by
  unfold scope
  rw [h.close.frames]

end SymbolTable

namespace BodyContext

variable (c : BodyContext) (t : SymbolTable)

theorem isVoid_iff {τ : TypeSymbol} : τ.isVoid = true ↔ τ.kind = .void := by
  simp [TypeSymbol.isVoid]

theorem accepts_ret {value : Option Expr} {location : Location} :
    c.checkReturn t location value = .ok () ↔
      Accepts c.machine c.returnType t.scope (.ret value location) t.scope := by
  cases value with
  | none =>
      unfold checkReturn
      by_cases hv : c.returnType.isVoid
      · simp only [hv, if_true, true_iff]
        exact .ret (isVoid_iff.mp hv)
      · simp only [hv, Bool.false_eq_true, if_false, reduceCtorEq, false_iff]
        intro h
        cases h with
        | ret hvoid => exact hv (isVoid_iff.mpr hvoid)
  | some e =>
      simp only [checkReturn, bind_eq_ok, infer_eq_ok]
      by_cases hv : c.returnType.isVoid
      · simp only [hv, if_true, reduceCtorEq, and_false, exists_false, false_iff]
        intro h
        cases h with
        | retValue _ hne _ => exact hne (isVoid_iff.mp hv)
      · simp only [hv, Bool.false_eq_true, if_false, expectType_eq_ok]
        constructor
        · rintro ⟨τ, he, hk⟩
          exact .retValue he (fun h => hv (isVoid_iff.mpr h)) hk
        · intro h
          cases h with
          | retValue he _ hk => exact ⟨_, he, hk⟩

theorem accepts_assign {lhs rhs : Expr} {location : Location} :
    c.checkAssign t lhs rhs location = .ok () ↔
      Accepts c.machine c.returnType t.scope (.assign lhs rhs location) t.scope := by
  unfold checkAssign
  split
  · simp only [bind_eq_ok, infer_eq_ok, expectType_eq_ok]
    constructor
    · rintro ⟨σ, hl, τ, hr, hk⟩
      exact .assign hl hr hk
    · intro h
      cases h with
      | assign hl hr hk => exact ⟨_, hl, _, hr, hk⟩
  · rename_i hnot
    simp only [reduceCtorEq, false_iff]
    intro h
    cases h with
    | assign _ _ _ => exact hnot _ _ rfl

theorem checkCond_eq_ok {cond : Expr} {u : Unit} :
    c.checkCond t cond = .ok u ↔ ∃ σ bool, HasType t.scope c.machine cond σ ∧
      t.scope.Binds "bool" .type (.type bool) ∧ bool.key = σ.key := by
  simp only [checkCond, bind_eq_ok, infer_eq_ok, SymbolTable.resolveType_eq_ok, expectType_eq_ok,
    boolName]
  constructor
  · rintro ⟨σ, hc, bool, hb, hk⟩
    exact ⟨σ, bool, hc, hb, hk⟩
  · rintro ⟨σ, bool, hc, hb, hk⟩
    exact ⟨σ, hc, bool, hb, hk⟩

theorem accepts_declare {type : TypeName} {ident : String} {init : Option Expr}
    {location : Location} {Γ : Scope} :
    Accepts c.machine c.returnType t.scope (.declare type ident init location) Γ ↔
      ∃ τ u, c.declareLocal t type ident init location = .ok (τ, u) ∧ u.scope = Γ := by
  simp only [declareLocal, bind_eq_ok, SymbolTable.resolveType_eq_ok]
  constructor
  · intro h
    rw [SymbolTable.scope_eq_cons] at h
    cases h with
    | @declare _ _ _ _ _ τ hτ hfree =>
        exact ⟨τ, _, ⟨τ, hτ, (), rfl, _, SymbolTable.declare_eq_ok.mpr ⟨hfree, rfl⟩, rfl⟩, rfl⟩
    | @declareInit _ _ _ _ init _ σ τ hτ hi hk hfree =>
        have hinit : c.checkInit t τ (some init) = .ok () :=
          bind_eq_ok.mpr ⟨σ, (infer_eq_ok t c.machine).mpr hi, expectType_eq_ok.mpr hk⟩
        exact ⟨τ, _, ⟨τ, hτ, (), hinit, _, SymbolTable.declare_eq_ok.mpr ⟨hfree, rfl⟩, rfl⟩, rfl⟩
  · rintro ⟨_, _, ⟨τ, hτ, _, hinit, u, hd, h⟩, rfl⟩
    cases h
    obtain ⟨hfree, rfl⟩ := SymbolTable.declare_eq_ok.mp hd
    cases init with
    | none => exact .declare hτ hfree
    | some init =>
        simp only [checkInit, bind_eq_ok, infer_eq_ok, expectType_eq_ok] at hinit
        obtain ⟨σ, hi, hk⟩ := hinit
        exact .declareInit hτ hi hk hfree

end BodyContext

namespace Body

variable (c : BodyContext)

theorem error_emit (t : SymbolTable) (out : Listing) (line : String)
    (check : Except CompileError Unit) :
    (emit t out line check).error = none ↔ check = .ok () := by
  cases check <;> simp [emit]

theorem scope_block (t : SymbolTable) (out : Listing) (ss : List Stmt) :
    (generate c t.push out ss).table.close.scope = t.scope :=
  SymbolTable.scope_close (grown_generate c t.push out ss)

mutual

/-- A statement that the generator writes can be derived. -/
theorem accepts_of_generateOne : ∀ (t : SymbolTable) (out : Listing) (s : Stmt),
    (generateOne c t out s).error = none →
      Accepts c.machine c.returnType t.scope s (generateOne c t out s).table.scope
  | t, out, .eval e location, h => by
      simp only [generateOne, error_emit, map_eq_ok, infer_eq_ok] at h
      obtain ⟨τ, he, -⟩ := h
      simp only [generateOne, table_emit]
      exact .eval he
  | t, out, .ret value location, h => by
      simp only [generateOne, error_emit] at h
      simp only [generateOne, table_emit]
      exact (c.accepts_ret t).mp h
  | t, out, .assign lhs rhs location, h => by
      simp only [generateOne, error_emit] at h
      simp only [generateOne, table_emit]
      exact (c.accepts_assign t).mp h
  | t, out, .declare type ident init location, h => by
      obtain ⟨symbol, u, hd, heq⟩ := declare_accepted h
      rw [heq]
      exact (c.accepts_declare t).mpr ⟨symbol, u, hd, rfl⟩
  | t, out, .branch cond thenBlock none location, h => by
      obtain ⟨hc, he, heq⟩ := branch_accepted h
      obtain ⟨σ, bool, hcond, hb, hk⟩ := (c.checkCond_eq_ok t).mp hc
      have first := accepts_of_generate _ _ thenBlock he
      have hscope : (generateOne c t out (.branch cond thenBlock none location)).table.scope =
          t.scope := by
        rw [heq]
        exact scope_block c t _ thenBlock
      rw [hscope]
      exact .branch hcond hb hk first
  | t, out, .branch cond thenBlock (some elseBlock) location, h => by
      obtain ⟨hc, he, he', heq⟩ := branchElse_accepted h
      obtain ⟨σ, bool, hcond, hb, hk⟩ := (c.checkCond_eq_ok t).mp hc
      have first := accepts_of_generate _ _ thenBlock he
      have second := accepts_of_generate _ _ elseBlock he'
      have hthen : (thenOutcome c t out cond thenBlock).table.scope = t.scope :=
        scope_block c t _ thenBlock
      have hscope : (generateOne c t out (.branch cond thenBlock (some elseBlock) location)).table.scope =
          t.scope := by
        rw [heq]
        exact (scope_block c _ _ elseBlock).trans hthen
      rw [SymbolTable.scope_push, hthen] at second
      rw [hscope]
      exact .branchElse hcond hb hk first second

theorem accepts_of_generate : ∀ (t : SymbolTable) (out : Listing) (ss : List Stmt),
    (generate c t out ss).error = none →
      AcceptsAll c.machine c.returnType t.scope ss (generate c t out ss).table.scope
  | t, out, [], _ => .nil
  | t, out, s :: rest, h => by
      obtain ⟨he, heq⟩ := cons_accepted h
      have first := accepts_of_generateOne t out s he
      rw [heq] at h ⊢
      exact .cons first (accepts_of_generate _ _ rest h)

end

mutual

/-- A statement that can be derived is written, and the scope after it is the derived one. -/
theorem generateOne_of_accepts : ∀ (t : SymbolTable) (out : Listing) (s : Stmt) {Γ : Scope},
    Accepts c.machine c.returnType t.scope s Γ →
      (generateOne c t out s).error = none ∧ (generateOne c t out s).table.scope = Γ
  | t, out, .eval e location, Γ, h => by
      cases h with
      | eval he =>
          simp only [generateOne, error_emit, table_emit, map_eq_ok, infer_eq_ok]
          exact ⟨⟨_, he, trivial⟩, trivial⟩
  | t, out, .ret value location, Γ, h => by
      have hΓ : t.scope = Γ := by cases h <;> rfl
      subst hΓ
      simp only [generateOne, error_emit, table_emit, and_true]
      exact (c.accepts_ret t).mpr h
  | t, out, .assign lhs rhs location, Γ, h => by
      have hΓ : t.scope = Γ := by cases h; rfl
      subst hΓ
      simp only [generateOne, error_emit, table_emit, and_true]
      exact (c.accepts_assign t).mpr h
  | t, out, .declare type ident init location, Γ, h => by
      obtain ⟨τ, u, hd, hu⟩ := (c.accepts_declare t).mp h
      simp only [generateOne, hd]
      exact ⟨trivial, hu⟩
  | t, out, .branch cond thenBlock none location, Γ, h => by
      cases h with
      | branch hcond hb hk hthen =>
          have hc := (c.checkCond_eq_ok t (u := ())).mpr ⟨_, _, hcond, hb, hk⟩
          obtain ⟨first, -⟩ :=
            generate_of_accepts t.push (out.line (thenText cond)).indent thenBlock hthen
          simp only [generateOne, hc, BodyOutcome.error_close, first, BodyOutcome.table_close,
            scope_block, true_and]
  | t, out, .branch cond thenBlock (some elseBlock) location, Γ, h => by
      cases h with
      | branchElse hcond hb hk hthen helse =>
          have hc := (c.checkCond_eq_ok t (u := ())).mpr ⟨_, _, hcond, hb, hk⟩
          obtain ⟨first, -⟩ :=
            generate_of_accepts t.push (out.line (thenText cond)).indent thenBlock hthen
          -- The second block starts in the scope that the first one started in.
          have hscope := scope_block c t (out.line (thenText cond)).indent thenBlock
          rw [← hscope] at helse
          obtain ⟨second, -⟩ := generate_of_accepts
            (generate c t.push (out.line (thenText cond)).indent thenBlock).table.close.push
            ((generate c t.push (out.line (thenText cond)).indent thenBlock).listing.dedent.line
              elseText).indent elseBlock helse
          simp only [generateOne, hc, BodyOutcome.error_close, first, BodyOutcome.table_close,
            BodyOutcome.listing_close, second, scope_block, true_and]

theorem generate_of_accepts : ∀ (t : SymbolTable) (out : Listing) (ss : List Stmt) {Γ : Scope},
    AcceptsAll c.machine c.returnType t.scope ss Γ →
      (generate c t out ss).error = none ∧ (generate c t out ss).table.scope = Γ
  | t, out, [], Γ, h => by
      cases h
      exact ⟨rfl, rfl⟩
  | t, out, s :: rest, Γ, h => by
      cases h with
      | cons hs hrest =>
          obtain ⟨first, hscope⟩ := generateOne_of_accepts t out s hs
          rw [← hscope] at hrest
          have := generate_of_accepts _ (generateOne c t out s).listing rest hrest
          simp only [generate, first]
          exact this

end

/-- The generator writes a list of statements to its end exactly if the list is well typed. -/
theorem generate_succeeds_iff (t : SymbolTable) (out : Listing) (ss : List Stmt) :
    (generate c t out ss).error = none ↔
      ∃ Γ, AcceptsAll c.machine c.returnType t.scope ss Γ := by
  constructor
  · intro h
    exact ⟨_, accepts_of_generate c t out ss h⟩
  · rintro ⟨Γ, h⟩
    exact (generate_of_accepts c t out ss h).1

end Body

end Coherence
