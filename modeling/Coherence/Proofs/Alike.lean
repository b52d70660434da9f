import Coherence.Proofs.Frames
/-!
# What a declaration sees

Two symbol tables are `Alike` if every name leads to the same symbol in both, in the innermost frame
and from it outwards. The order in which symbols were bound, the marks of closed frames and the field
types on record make no difference.

A table may also see more than another (`Below`, and `Within` if their innermost frames bind the same).
What compiles keeps its result on a table that sees more: a function (`FuncDecl.toFunc_below`), and a
type if none of its fields is on record (`TypeDecl.compileDeclared_below`). No failure is needed for
success, so nothing is lost by seeing more.
-/

namespace Coherence

open SymbolTable (Grown Kept)

/-- Every result of the first step is a result of the second. -/
def Subsumed {α : Type} (x y : Except CompileError α) : Prop := ∀ a, x = .ok a → y = .ok a

namespace Subsumed

variable {α β : Type} {x y : Except CompileError α}

theorem refl (x : Except CompileError α) : Subsumed x x := fun _ h => h

theorem bind {f g : α → Except CompileError β} (h : Subsumed x y) (hfg : ∀ a, Subsumed (f a) (g a)) :
    Subsumed (x >>= f) (y >>= g) := by
  intro b hb
  obtain ⟨a, ha, hb⟩ := bind_eq_ok.mp hb
  exact bind_eq_ok.mpr ⟨a, h a ha, hfg a b hb⟩

theorem map (f : α → β) (h : Subsumed x y) : Subsumed (x.map f) (y.map f) := by
  intro b hb
  obtain ⟨a, ha, hb⟩ := map_eq_ok.mp hb
  exact map_eq_ok.mpr ⟨a, h a ha, hb⟩

end Subsumed

namespace SymbolTable

/-- Every name leads to the same symbol in both tables. -/
structure Alike (t u : SymbolTable) : Prop where
  top : t.top.find? = u.top.find?
  lookup : t.lookup = u.lookup

/-- Every name that leads to a symbol in `t` leads to it in `u`. -/
def Below (t u : SymbolTable) : Prop :=
  ∀ name kind s, t.lookup name kind = some s → u.lookup name kind = some s

/-- Every name that leads to a symbol in `t` leads to it in `u`, and the innermost frames bind the
same. -/
structure Within (t u : SymbolTable) : Prop where
  top : t.top.find? = u.top.find?
  below : t.Below u

variable {t u : SymbolTable}

namespace Alike

theorem refl : Alike t t := ⟨rfl, rfl⟩

theorem symm (h : Alike t u) : Alike u t := ⟨h.top.symm, h.lookup.symm⟩

theorem trans {v : SymbolTable} (h : Alike t u) (h' : Alike u v) : Alike t v :=
  ⟨h.top.trans h'.top, h.lookup.trans h'.lookup⟩

theorem of_frames {t u : SymbolTable} (h : t.frames = u.frames) : Alike t u := by
  obtain ⟨htop, -⟩ : t.top = u.top ∧ t.outer = u.outer := List.cons.inj h
  refine ⟨by rw [htop], ?_⟩
  funext name kind
  unfold SymbolTable.lookup
  rw [h]

theorem push (h : Alike t u) (owner : Option String) : Alike (t.push owner) (u.push owner) := by
  refine ⟨rfl, ?_⟩
  funext name kind
  rw [lookup_push, lookup_push, h.lookup]

theorem bind (h : Alike t u) (s : Symbol) : Alike (t.bind s) (u.bind s) := by
  constructor <;> funext name kind
  · rw [find?_bind, find?_bind, h.top]
  · rw [lookup_bind, lookup_bind, h.lookup]

theorem below (h : Alike t u) : t.Below u := by
  intro name kind s hs
  rw [← h.lookup]
  exact hs

end Alike

namespace Within

theorem of_alike (h : Alike t u) : t.Within u := ⟨h.top, h.below⟩

theorem trans {v : SymbolTable} (h : t.Within u) (h' : u.Within v) : t.Within v :=
  ⟨h.top.trans h'.top, fun name kind s hs => h'.below name kind s (h.below name kind s hs)⟩

theorem antisymm (h : t.Within u) (h' : u.Below t) : Alike t u := by
  refine ⟨h.top, ?_⟩
  funext name kind
  cases hl : t.lookup name kind with
  | some s => exact (h.below name kind s hl).symm
  | none =>
      cases hu : u.lookup name kind with
      | none => rfl
      | some s =>
          rw [h' name kind s hu] at hl
          cases hl

theorem push (h : t.Below u) (owner : Option String) : (t.push owner).Within (u.push owner) := by
  refine ⟨rfl, fun name kind s hs => ?_⟩
  rw [lookup_push] at hs ⊢
  exact h name kind s hs

theorem bind (h : t.Within u) (s : Symbol) : (t.bind s).Within (u.bind s) := by
  constructor
  · funext name kind
    rw [find?_bind, find?_bind, h.top]
  · intro name kind s' hs
    rw [lookup_bind] at hs ⊢
    split at hs
    · rename_i hkey
      rw [if_pos hkey]
      exact hs
    · rename_i hkey
      rw [if_neg hkey]
      exact h.below name kind s' hs

/-- Frames that were opened are closed again. -/
theorem close {owner : Option String} {touched : TypeSymbol.Key → Prop} {t' u' : SymbolTable}
    (h : t.Within u) (ht : Grown none touched (t.push owner) t')
    (hu : Grown none touched (u.push owner) u') : t'.close.Within u'.close :=
  (of_alike (.of_frames ht.close.frames)).trans
    (h.trans (of_alike (.of_frames hu.close.frames.symm)))

theorem declare {t' : SymbolTable} {s : Symbol} (h : t.Within u) (hd : t.declare s = .ok t') :
    t' = t.bind s ∧ u.declare s = .ok (u.bind s) := by
  obtain ⟨hfree, rfl⟩ := declare_eq_ok.mp hd
  refine ⟨rfl, declare_eq_ok.mpr ⟨?_, rfl⟩⟩
  rw [← h.top]
  exact hfree

end Within

namespace Below

theorem find (h : t.Below u) (name : String) (kind : SymbolKind) (location : Location) :
    Subsumed (t.find name kind location) (u.find name kind location) := by
  intro s hs
  unfold SymbolTable.find at hs ⊢
  split at hs
  · rename_i hl
    rw [h name kind _ hl]
    exact hs
  · cases hs

theorem findVar (h : t.Below u) (name : String) (location : Location) :
    Subsumed (t.findVar name location) (u.findVar name location) :=
  (h.find name .var location).bind fun _ => .refl _

theorem findFunc (h : t.Below u) (name : String) (location : Location) :
    Subsumed (t.findFunc name location) (u.findFunc name location) :=
  (h.find name .func location).bind fun _ => .refl _

end Below

/-- To find a type only the types in scope matter. -/
theorem resolveType_subsumed {name : String} {location : Location}
    (h : ∀ s, t.lookup name .type = some s → u.lookup name .type = some s) :
    Subsumed (t.resolveType name location) (u.resolveType name location) := by
  intro τ hτ
  unfold resolveType findType? at hτ ⊢
  cases hl : t.lookup name .type with
  | none =>
      rw [hl] at hτ
      cases hτ
  | some s =>
      rw [hl] at hτ
      rw [h s hl]
      exact hτ

theorem Below.resolveType (h : t.Below u) (name : String) (location : Location) :
    Subsumed (t.resolveType name location) (u.resolveType name location) :=
  resolveType_subsumed (h name .type)

end SymbolTable

open SymbolTable (Below Within)

/-! ### Bodies -/

section body

variable {t u : SymbolTable} {m m' : Option StateMachine}

theorem callee_below (h : t.Below u) (hm : ownFunc m = ownFunc m') (ident : String)
    (location : Location) : Subsumed (callee t m ident location) (callee u m' ident location) := by
  unfold callee
  rw [hm]
  refine Subsumed.bind (.refl _) fun own => ?_
  cases own with
  | some f => exact .refl _
  | none => exact h.findFunc ident location

theorem result_below (h : t.Below u) (op : BinaryOp) (operand : TypeSymbol) (location : Location) :
    Subsumed (op.result t operand location) (op.result u operand location) := by
  unfold BinaryOp.result
  split
  · exact (h.resolveType _ _).bind fun _ => .refl _
  · exact h.resolveType _ _

mutual

/-- An expression keeps its type where more is in scope, in a machine with the same functions. -/
theorem infer_below (h : t.Below u) (hm : ownFunc m = ownFunc m') :
    ∀ e : Expr, Subsumed (e.infer t m) (e.infer u m')
  | .var ident location => (h.findVar ident location).map _
  | .literal value location => h.resolveType _ _
  | .call ident args location => by
      unfold Expr.infer
      refine (callee_below h hm ident location).bind fun f => ?_
      split
      · exact (checkArgs_below h hm args f.params).bind fun _ => .refl _
      · exact .refl _
  | .binary lhs op rhs location => by
      unfold Expr.infer
      refine (infer_below h hm lhs).bind fun left => ?_
      refine (infer_below h hm rhs).bind fun right => ?_
      exact (Subsumed.refl _).bind fun _ => result_below h op left location

theorem checkArgs_below (h : t.Below u) (hm : ownFunc m = ownFunc m') :
    ∀ (args : List Expr) (params : List Param),
      Subsumed (Expr.checkArgs t m args params) (Expr.checkArgs u m' args params)
  | [], _ => .refl _
  | _ :: _, [] => .refl _
  | arg :: args, param :: params => by
      unfold Expr.checkArgs
      refine (infer_below h hm arg).bind fun found => ?_
      exact (Subsumed.refl _).bind fun _ => checkArgs_below h hm args params

end

variable {c c' : BodyContext}

namespace BodyContext

/-- Bodies are checked against the same functions and the same result. -/
structure Alike (c c' : BodyContext) : Prop where
  machine : ownFunc c.machine = ownFunc c'.machine
  returnType : c.returnType = c'.returnType

theorem checkReturn_below (hc : c.Alike c') (h : t.Below u) (location : Location)
    (value : Option Expr) :
    Subsumed (c.checkReturn t location value) (c'.checkReturn u location value) := by
  cases value with
  | none =>
      rw [checkReturn, checkReturn, hc.returnType]
      exact .refl _
  | some e =>
      rw [checkReturn, checkReturn, hc.returnType]
      exact (infer_below h hc.machine e).bind fun _ => .refl _

theorem checkAssign_below (hc : c.Alike c') (h : t.Below u) (lhs rhs : Expr)
    (location : Location) :
    Subsumed (c.checkAssign t lhs rhs location) (c'.checkAssign u lhs rhs location) := by
  unfold checkAssign
  split
  · refine (infer_below h hc.machine _).bind fun left => ?_
    exact (infer_below h hc.machine rhs).bind fun _ => .refl _
  · exact .refl _

theorem checkCond_below (hc : c.Alike c') (h : t.Below u) (cond : Expr) :
    Subsumed (c.checkCond t cond) (c'.checkCond u cond) := by
  refine (infer_below h hc.machine cond).bind fun _ => ?_
  exact (h.resolveType _ _).bind fun _ => .refl _

theorem declareLocal_within (hc : c.Alike c') (h : t.Within u) {type : TypeName} {ident : String}
    {init : Option Expr} {location : Location} {symbol : TypeSymbol} {t' : SymbolTable}
    (hd : c.declareLocal t type ident init location = .ok (symbol, t')) :
    ∃ v, t' = t.bind v ∧ c'.declareLocal u type ident init location = .ok (symbol, u.bind v) := by
  have hinit : ∀ τ, Subsumed (c.checkInit t τ init) (c'.checkInit u τ init) := by
    intro τ
    cases init with
    | none => exact .refl _
    | some e => exact (infer_below h.below hc.machine e).bind fun _ => .refl _
  simp only [declareLocal, bind_eq_ok] at hd ⊢
  obtain ⟨τ, hτ, _, hi, v, hv, heq⟩ := hd
  cases heq
  obtain ⟨rfl, hu⟩ := h.declare hv
  exact ⟨_, rfl, symbol, h.below.resolveType _ _ symbol hτ, (), hinit symbol () hi, _, hu, rfl⟩

end BodyContext

/-- The second outcome is a success, too: the same was written, and no less is in scope. -/
structure BodyOutcome.Within (o o' : BodyOutcome) : Prop where
  table : o.table.Within o'.table
  listing : o.listing = o'.listing
  error : o'.error = none

namespace Body

theorem emit_within (h : t.Within u) {check check' : Except CompileError Unit}
    (hcheck : Subsumed check check') (out : Listing) (line : String)
    (hok : (emit t out line check).error = none) :
    (emit t out line check).Within (emit u out line check') := by
  cases check with
  | error e => cases hok
  | ok _ =>
      rw [hcheck () rfl]
      exact ⟨h, rfl, rfl⟩

/-- Blocks keep what was said of them when their frames are closed. -/
theorem close_within (h : t.Within u) {out out' : Listing} {ss : List Stmt}
    (ho : (generate c t.push out ss).Within (generate c' u.push out' ss)) :
    (generate c t.push out ss).close.Within (generate c' u.push out' ss).close :=
  ⟨h.close (grown_generate c t.push out ss) (grown_generate c' u.push out' ss), ho.listing, ho.error⟩

mutual

theorem generateOne_within (hc : c.Alike c') : ∀ (t u : SymbolTable) (out : Listing) (s : Stmt),
    t.Within u → (generateOne c t out s).error = none →
      (generateOne c t out s).Within (generateOne c' u out s)
  | t, u, out, .eval e location, h, hok =>
      emit_within h ((infer_below h.below hc.machine e).map _) out _ hok
  | t, u, out, .ret value location, h, hok =>
      emit_within h (c.checkReturn_below hc h.below location value) out _ hok
  | t, u, out, .assign lhs rhs location, h, hok =>
      emit_within h (c.checkAssign_below hc h.below lhs rhs location) out _ hok
  | t, u, out, .declare type ident init location, h, hok => by
      obtain ⟨symbol, t', hd, heq⟩ := declare_accepted hok
      obtain ⟨v, rfl, hu⟩ := c.declareLocal_within hc h hd
      have heq' : generateOne c' u out (.declare type ident init location) =
          { table := u.bind v, listing := out.line (localText symbol.cIdent ident init) } := by
        simp only [generateOne, hu]
      rw [heq, heq']
      exact ⟨h.bind v, rfl, rfl⟩
  | t, u, out, .branch cond thenBlock none location, h, hok => by
      obtain ⟨hcond, he, heq⟩ := branch_accepted hok
      have first : (thenOutcome c t out cond thenBlock).Within (thenOutcome c' u out cond thenBlock) :=
        close_within h (generate_within hc _ _ _ thenBlock (.push h.below none) he)
      rw [heq, generateOne_branch, c.checkCond_below hc h.below cond () hcond]
      simp only [first.error]
      exact ⟨first.table, by rw [first.listing], rfl⟩
  | t, u, out, .branch cond thenBlock (some elseBlock) location, h, hok => by
      obtain ⟨hcond, he, he', heq⟩ := branchElse_accepted hok
      have first : (thenOutcome c t out cond thenBlock).Within (thenOutcome c' u out cond thenBlock) :=
        close_within h (generate_within hc _ _ _ thenBlock (.push h.below none) he)
      have second : (elseOutcome c (thenOutcome c t out cond thenBlock) elseBlock).Within
          (elseOutcome c' (thenOutcome c' u out cond thenBlock) elseBlock) := by
        unfold elseOutcome at he' ⊢
        rw [← first.listing]
        exact close_within first.table
          (generate_within hc _ _ _ elseBlock (.push first.table.below none) he')
      rw [heq, generateOne_branchElse, c.checkCond_below hc h.below cond () hcond]
      simp only [first.error, second.error]
      exact ⟨second.table, by rw [second.listing], rfl⟩

/-- Statements that are accepted are accepted where more is in scope, and the same is written. -/
theorem generate_within (hc : c.Alike c') : ∀ (t u : SymbolTable) (out : Listing) (ss : List Stmt),
    t.Within u → (generate c t out ss).error = none →
      (generate c t out ss).Within (generate c' u out ss)
  | t, u, out, [], h, _ => ⟨h, rfl, rfl⟩
  | t, u, out, s :: rest, h, hok => by
      obtain ⟨he, heq⟩ := cons_accepted hok
      have first := generateOne_within hc t u out s h he
      rw [heq] at hok ⊢
      rw [generate_cons, first.error, ← first.listing]
      exact generate_within hc _ _ _ rest first.table hok

end

end Body

end body

/-! ### Functions -/

namespace FuncDecl

theorem bindFormals_within {t u : SymbolTable} (h : t.Within u) {formals : List Formal}
    {parts : List TypeSymbol × List String} (hok : (bindFormals t formals).1 = .ok parts) :
    (bindFormals u formals).1 = .ok parts ∧
      (bindFormals t formals).2.Within (bindFormals u formals).2 := by
  induction formals generalizing t u parts with
  | nil => exact ⟨hok, h⟩
  | cons f fs ih =>
      unfold bindFormals at hok ⊢
      cases hτ : t.resolveType f.type.ident f.type.location with
      | error e =>
          rw [hτ] at hok
          cases hok
      | ok τ =>
          rw [hτ] at hok
          rw [h.below.resolveType _ _ τ hτ]
          dsimp only at hok ⊢
          cases hd : t.declare (.var { ident := f.ident, location := f.location, type := τ }) with
          | error e =>
              rw [hd] at hok
              cases hok
          | ok t' =>
              obtain ⟨rfl, hu⟩ := h.declare hd
              rw [hd] at hok
              rw [hu]
              obtain ⟨rest, hrest, heq⟩ := map_eq_ok.mp hok
              obtain ⟨hrest', hwithin⟩ := ih (h.bind _) hrest
              exact ⟨map_eq_ok.mpr ⟨rest, hrest', heq⟩, hwithin⟩

theorem compileBody_within {c c' : BodyContext} {t u : SymbolTable} (hc : c.Alike c')
    (h : t.Within u) (body : Option (List Stmt)) :
    Subsumed (compileBody c t body).1 (compileBody c' u body).1 := by
  cases body with
  | none => exact .refl _
  | some statements =>
      refine Subsumed.map _ ?_
      intro text htext
      split at htext
      · cases htext
      · rename_i he
        have ho := Body.generate_within hc t u { depth := 1 } statements h he
        rw [ho.error, ← ho.listing]
        exact htext

theorem compileParts_within {c c' : BodyContext} {t u : SymbolTable} (hc : c.Alike c')
    (h : t.Within u) (d : FuncDecl) : Subsumed (d.compileParts c t).1 (d.compileParts c' u).1 := by
  intro parts hparts
  unfold compileParts at hparts ⊢
  split at hparts
  · cases hparts
  · rename_i t' hb
    obtain ⟨hb', hwithin⟩ := bindFormals_within h (congrArg Prod.fst hb)
    rw [hb] at hwithin
    rw [show bindFormals u d.formals = (.ok _, (bindFormals u d.formals).2) from Prod.ext hb' rfl]
    exact (compileBody_within hc hwithin d.body?).map _ parts hparts

/-- A function compiles into the same where more is in scope, in a machine with the same functions. -/
theorem toFunc_below {s s' : Site} (h : s.table.Below s'.table) (howner : s.owner = s'.owner)
    (hm : ownFunc s.machine = ownFunc s'.machine) (d : FuncDecl) :
    Subsumed (d.toFunc s).1 (d.toFunc s').1 := by
  intro f hf
  unfold toFunc at hf ⊢
  cases hτ : s.table.resolveType d.returnType.ident d.returnType.location with
  | error e =>
      rw [hτ] at hf
      cases hf
  | ok τ =>
      rw [hτ] at hf
      rw [h.resolveType _ _ τ hτ, ← howner]
      have hcontext : BodyContext.Alike { machine := s.machine, returnType := τ }
        { machine := s'.machine, returnType := τ } := ⟨hm, rfl⟩
      exact (compileParts_within hcontext (.push h none) d).bind (fun _ => .refl _) f hf

end FuncDecl

/-! ### Types -/

namespace TypeDecl

variable {type : TypeSymbol}

theorem foundFields_close (t : SymbolTable) (type : TypeSymbol) :
    t.close.foundFields type = t.foundFields type := by
  unfold SymbolTable.foundFields SymbolTable.close SymbolTable.pop
  cases t.outer <;> rfl

/-- The second table has all that compiling a type's members looks at in the first. -/
structure Sees (type : TypeSymbol) (t u : SymbolTable) : Prop where
  top : t.top.find? = u.top.find?
  types : ∀ name s, t.lookup name .type = some s → u.lookup name .type = some s
  found : t.foundFields type = u.foundFields type

namespace Sees

variable {t u t' : SymbolTable}

theorem declare (h : Sees type t u) {v : Var} (hd : t.declare (.var v) = .ok t') :
    ∃ u', u.declare (.var v) = .ok u' ∧ Sees type t' u' := by
  obtain ⟨hfree, rfl⟩ := SymbolTable.declare_eq_ok.mp hd
  rw [h.top] at hfree
  refine ⟨_, SymbolTable.declare_eq_ok.mpr ⟨hfree, rfl⟩, ?_, fun name s hs => ?_, h.found⟩
  · funext name kind
    rw [SymbolTable.find?_bind, SymbolTable.find?_bind, h.top]
  · rw [SymbolTable.lookup_bind, if_neg (by simp [Symbol.key, Symbol.kind])] at hs ⊢
    exact h.types name s hs

theorem resolveField (h : Sees type t u) {position : Nat} {field : String} {found : FieldType}
    (hr : t.resolveField type position field found = .ok t') :
    ∃ u', u.resolveField type position field found = .ok u' ∧ Sees type t' u' := by
  unfold SymbolTable.resolveField at hr ⊢
  rw [← h.found]
  split at hr
  · cases hr
  · rename_i hlt
    cases hr
    rw [if_neg hlt]
    exact ⟨_, rfl, h.top, h.types, by simp [SymbolTable.foundFields]⟩

end Sees

theorem resolveFields_sees {t u : SymbolTable} (h : Sees type t u) {position : Nat}
    {fields : List Field} (hok : (resolveFields type t position fields).1 = .ok ()) :
    (resolveFields type u position fields).1 = .ok () ∧
      Sees type (resolveFields type t position fields).2 (resolveFields type u position fields).2 := by
  induction fields generalizing t u position with
  | nil => exact ⟨rfl, h⟩
  | cons f fs ih =>
      unfold resolveFields at hok ⊢
      cases hτ : t.resolveType f.typeName f.location with
      | error e =>
          rw [hτ] at hok
          cases hok
      | ok found =>
          rw [hτ] at hok
          rw [SymbolTable.resolveType_subsumed (h.types _) found hτ]
          dsimp only at hok ⊢
          cases hr : t.resolveField type position f.ident found.asFieldType with
          | error e =>
              rw [hr] at hok
              cases hok
          | ok t₁ =>
              obtain ⟨u₁, hu₁, h₁⟩ := h.resolveField hr
              rw [hr] at hok
              rw [hu₁]
              dsimp only at hok ⊢
              cases hd : t₁.declare (.var { ident := f.ident, location := f.location, type := found }) with
              | error e =>
                  rw [hd] at hok
                  cases hok
              | ok t₂ =>
                  obtain ⟨u₂, hu₂, h₂⟩ := h₁.declare hd
                  rw [hd] at hok
                  rw [hu₂]
                  exact ih h₂ hok

theorem bindValues_sees {t u : SymbolTable} (h : Sees type t u) {values : List String}
    (hok : (bindValues type t values).1 = .ok ()) :
    (bindValues type u values).1 = .ok () ∧
      Sees type (bindValues type t values).2 (bindValues type u values).2 := by
  induction values generalizing t u with
  | nil => exact ⟨rfl, h⟩
  | cons v vs ih =>
      unfold bindValues at hok ⊢
      cases hd : t.declare (.var { ident := v, location := type.location, type }) with
      | error e =>
          rw [hd] at hok
          cases hok
      | ok t' =>
          obtain ⟨u', hu', h'⟩ := h.declare hd
          rw [hd] at hok
          rw [hu']
          exact ih h' hok

theorem checkMembers_sees {t u : SymbolTable} (h : Sees type t u)
    (hok : (checkMembers type t).1 = .ok ()) :
    (checkMembers type u).1 = .ok () ∧ Sees type (checkMembers type t).2 (checkMembers type u).2 := by
  unfold checkMembers at hok ⊢
  split at hok
  · exact resolveFields_sees h hok
  · exact bindValues_sees h hok
  · exact ⟨rfl, h⟩
  · exact ⟨rfl, h⟩

/-- A type compiles into the same where more types are in scope, if the same of its fields is on
record. -/
theorem compileDeclared_below {s s' : Site}
    (h : ∀ name x, s.table.lookup name .type = some x → s'.table.lookup name .type = some x)
    (hfound : s.table.foundFields type = s'.table.foundFields type) :
    Subsumed (compileDeclared s type).1 (compileDeclared s' type).1 := by
  intro d hd
  have hpush : Sees type s.table.push s'.table.push := ⟨rfl, h, hfound⟩
  unfold compileDeclared at hd ⊢
  cases ht : checkMembers type s.table.push with
  | mk result v =>
      rw [ht] at hd
      cases result with
      | error e => cases hd
      | ok _ =>
          obtain ⟨hok, hsees⟩ := checkMembers_sees hpush (congrArg Prod.fst ht)
          rw [ht] at hsees
          have hdefine : v.close.define type =
              (checkMembers type s'.table.push).2.close.define type := by
            unfold SymbolTable.define
            rw [foundFields_close, foundFields_close, hsees.found]
          rw [show checkMembers type s'.table.push = (.ok (), _) from Prod.ext hok rfl]
          dsimp only at hd ⊢
          rw [← hdefine]
          exact hd

end TypeDecl

end Coherence
