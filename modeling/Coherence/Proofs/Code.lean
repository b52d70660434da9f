import Coherence.Proofs.Frames
/-!
# Generated statements

A `Code` is a statement of generated code: a statement of the source with the type of a local variable
spelled out. `Code.writeAll` writes such statements with nothing but them and the indentation at hand.

The generator writes no more than that: the text of a body that is accepted is that of its own
statements, under the spellings of the types in scope (`Body.listing_generate`,
`FuncDecl.generated_toFunc`).
-/

namespace Coherence

open SymbolTable (Grown Untouched)

/-- A statement of generated code. -/
inductive Code
  | eval (expr : Expr)
  | ret (value : Option Expr)
  | assign (lhs rhs : Expr)
  | declare (cType ident : String) (init : Option Expr)
  | branch (cond : Expr) (thenBlock : List Code) (elseBlock : Option (List Code))

namespace Code

open Body (returnText localText thenText elseText endText)

mutual

def write (out : Listing) : Code → Listing
  | .eval expr => out.line (expr.text ++ ";")
  | .ret value => out.line (returnText value)
  | .assign lhs rhs => out.line (lhs.text ++ " = " ++ rhs.text ++ ";")
  | .declare cType ident init => out.line (localText cType ident init)
  | .branch cond thenBlock none =>
    (writeAll (out.line (thenText cond)).indent thenBlock).dedent.line endText
  | .branch cond thenBlock (some elseBlock) =>
    let first := writeAll (out.line (thenText cond)).indent thenBlock
    (writeAll (first.dedent.line elseText).indent elseBlock).dedent.line endText

def writeAll (out : Listing) : List Code → Listing
  | [] => out
  | c :: rest => writeAll (write out c) rest

end

end Code

namespace Stmt

mutual

/-- A statement with its types spelled out. -/
def code (spelling : String → String) : Stmt → Code
  | .eval expr _ => .eval expr
  | .ret value _ => .ret value
  | .assign lhs rhs _ => .assign lhs rhs
  | .declare type ident init _ => .declare (spelling type.ident) ident init
  | .branch cond thenBlock none _ => .branch cond (codes spelling thenBlock) none
  | .branch cond thenBlock (some elseBlock) _ =>
    .branch cond (codes spelling thenBlock) (some (codes spelling elseBlock))

def codes (spelling : String → String) : List Stmt → List Code
  | [] => []
  | s :: rest => code spelling s :: codes spelling rest

end

end Stmt

namespace SymbolTable

/-- The spelling of the type that a name means; the name itself if it means none. -/
def spelling (t : SymbolTable) (name : String) : String :=
  match t.findType? name with
  | some type => type.cIdent
  | none => name

variable {t u : SymbolTable} {owner : Option String} {touched : TypeSymbol.Key → Prop}

theorem spelling_congr (h : ∀ name, u.lookup name .type = t.lookup name .type) :
    u.spelling = t.spelling := by
  funext name
  unfold spelling findType?
  rw [h]

theorem spelling_push (t : SymbolTable) (owner : Option String) :
    (t.push owner).spelling = t.spelling := spelling_congr fun _ => rfl

theorem Grown.spelling (h : Grown owner touched t u) : u.spelling = t.spelling :=
  spelling_congr (h.lookup (by simp))

theorem spelling_of_resolveType {name : String} {location : Location} {type : TypeSymbol}
    (h : t.resolveType name location = .ok type) : t.spelling name = type.cIdent := by
  unfold SymbolTable.spelling
  rw [resolveType_ok_iff.mp h]

end SymbolTable

/-! ### Bodies -/

namespace Body

variable (c : BodyContext)

mutual

/-- A statement that is accepted is written as it stands. -/
theorem listing_generateOne : ∀ (t : SymbolTable) (out : Listing) (s : Stmt),
    (generateOne c t out s).error = none →
      (generateOne c t out s).listing = Code.write out (s.code t.spelling)
  | t, out, .eval .., h => congrArg BodyOutcome.listing (emit_accepted h).2
  | t, out, .ret .., h => congrArg BodyOutcome.listing (emit_accepted h).2
  | t, out, .assign .., h => congrArg BodyOutcome.listing (emit_accepted h).2
  | t, out, .declare type ident init location, h => by
      obtain ⟨symbol, u, hd, heq⟩ := declare_accepted h
      simp only [BodyContext.declareLocal, bind_eq_ok] at hd
      obtain ⟨τ, hτ, _, -, _, -, hp⟩ := hd
      cases hp
      rw [heq, Stmt.code, Code.write, SymbolTable.spelling_of_resolveType hτ]
  | t, out, .branch cond thenBlock none location, h => by
      obtain ⟨-, he, heq⟩ := branch_accepted h
      have first := listing_generate _ _ thenBlock he
      rw [SymbolTable.spelling_push] at first
      rw [heq, Stmt.code, Code.write, ← first]
      rfl
  | t, out, .branch cond thenBlock (some elseBlock) location, h => by
      obtain ⟨-, he, he', heq⟩ := branchElse_accepted h
      have first := listing_generate _ _ thenBlock he
      have second := listing_generate _ _ elseBlock he'
      -- The second block spells types as the first one does.
      have hkept : Grown none Untouched t (thenOutcome c t out cond thenBlock).table :=
        kept_block (grown_generate c t.push _ thenBlock)
      rw [SymbolTable.spelling_push] at first
      rw [SymbolTable.spelling_push, hkept.spelling] at second
      rw [heq, Stmt.code, Code.write, ← first]
      exact congrArg (fun l : Listing => l.dedent.line endText) second

theorem listing_generate : ∀ (t : SymbolTable) (out : Listing) (ss : List Stmt),
    (generate c t out ss).error = none →
      (generate c t out ss).listing = Code.writeAll out (Stmt.codes t.spelling ss)
  | t, out, [], _ => rfl
  | t, out, s :: rest, h => by
      obtain ⟨he, heq⟩ := cons_accepted h
      have first := listing_generateOne t out s he
      rw [heq] at h ⊢
      rw [listing_generate _ _ rest h, (grown_generateOne c t out s).spelling, first]
      rfl

end

end Body

/-! ### Functions -/

namespace FuncDecl

/-- What the body of a function with this result is checked against at a site. -/
def bodyContext (s : Site) (returnType : TypeSymbol) : BodyContext :=
  { machine := s.machine, returnType }

/-- The table at the start of a function's body: its innermost frame holds the parameters. -/
def bodyTable (s : Site) (d : FuncDecl) : SymbolTable := (bindFormals s.table.push d.formals).2

/-- What is known of the body of a function that compiles: its parameters were bound, its statements
were accepted, and its text is that of the statements. -/
theorem generated_toFunc {s : Site} {d : FuncDecl} {f : Func} {statements : List Stmt}
    (h : (d.toFunc s).1 = .ok f) (hb : d.body? = some statements) :
    (∃ parts, (bindFormals s.table.push d.formals).1 = .ok parts) ∧
      (Body.generate (bodyContext s f.returnType) (d.bodyTable s) { depth := 1 }
        statements).error = none ∧
      f.body = .generated
        (Code.writeAll { depth := 1 } (Stmt.codes s.table.spelling statements)).text := by
  have hspelling : (d.bodyTable s).spelling = s.table.spelling := by
    rw [bodyTable, (grown_bindFormals s.table.push d.formals).spelling, SymbolTable.spelling_push]
  unfold toFunc at h
  split at h
  · cases h
  · rename_i ρ _
    obtain ⟨parts, hparts, h⟩ := bind_eq_ok.mp h
    have hf : f.returnType = ρ ∧ f.body = parts.body := by
      unfold assemble at h
      split at h
      · cases h
      · cases h
        exact ⟨rfl, rfl⟩
    obtain ⟨rfl, hbody⟩ := hf
    unfold compileParts at hparts
    split at hparts
    · cases hparts
    · rename_i types names t ht
      have htable : d.bodyTable s = t := congrArg Prod.snd ht
      obtain ⟨body, hcompile, rfl⟩ := map_eq_ok.mp hparts
      rw [hb] at hcompile
      obtain ⟨text, htext, rfl⟩ := map_eq_ok.mp hcompile
      rw [← htable] at htext
      split at htext
      · cases htext
      · rename_i he
        cases htext
        refine ⟨⟨_, congrArg Prod.fst ht⟩, he, ?_⟩
        rw [hbody, ← hspelling, ← Body.listing_generate _ _ _ _ he]

end FuncDecl

end Coherence
