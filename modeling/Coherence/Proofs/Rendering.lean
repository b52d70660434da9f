import Coherence.Proofs.Checked
import Coherence.Proofs.Harmless
/-!
# Generated text is what checking leaves out

The text of an accepted body can be told from its statements and the spellings of the types of its local
variables alone (`Stmt.rendering`): it is not changed by the table, the machine or the result that the body
is checked against, as long as these types are spelled alike (`Body.generate_renders`).

The same holds of expressions. `Expr.compile` finds the code of an expression along with its type, each
name as the symbol found for it is spelled, and that code is the expression's text
(`Expr.compile_eq_infer`).
-/

namespace Coherence

open SymbolTable (Grown Untouched)

/-! ### Lines -/

namespace Listing

variable {l : Listing}

/-- The listing with more lines, as they are. -/
def append (l : Listing) (lines : List String) : Listing := { l with lines := l.lines ++ lines }

@[simp]
theorem append_nil (l : Listing) : l.append [] = l := by simp [append]

@[simp]
theorem append_append (l : Listing) (lines others : List String) :
    (l.append lines).append others = l.append (lines ++ others) := by simp [append]

@[simp]
theorem depth_append (l : Listing) (lines : List String) : (l.append lines).depth = l.depth := rfl

/-- Lines that are written between an indentation and its end. -/
theorem dedent_append_indent (l : Listing) (lines : List String) :
    (l.indent.append lines).dedent = l.append lines := rfl

theorem text_append (l : Listing) (lines : List String) :
    (l.append lines).text = l.text ++ String.join (lines.map (· ++ "\n")) := by
  simp only [text, append, List.map_append, String.join_append]

theorem margin_eq (depth : Nat) : margin depth = String.ofList (List.replicate (4 * depth) ' ') := by
  induction depth with
  | zero => rfl
  | succ depth ih =>
      rw [margin, ih, Nat.mul_succ, Nat.add_comm, ← List.replicate_append_replicate, String.ofList_append]
      rfl

end Listing

/-- A line in front of which there are four blanks for each step of its indentation. -/
def blanks (depth : Nat) (text : String) : String :=
  String.ofList (List.replicate (4 * depth) ' ') ++ text

theorem Listing.line_eq {l : Listing} {text : String} (h : text ≠ "") :
    l.line text = l.append [blanks l.depth text] := by
  unfold line indented blanks
  rw [if_neg h, margin_eq]
  rfl

/-! ### Statements as they are rendered -/

namespace Stmt

mutual

/-- The lines of a statement at an indentation. -/
def lines (spelling : String → String) (depth : Nat) : Stmt → List String
  | .eval expr _ => [blanks depth (expr.text ++ ";")]
  | .ret none _ => [blanks depth "return;"]
  | .ret (some value) _ => [blanks depth ("return " ++ value.text ++ ";")]
  | .assign lhs rhs _ => [blanks depth (lhs.text ++ " = " ++ rhs.text ++ ";")]
  | .declare type ident none _ => [blanks depth (spelling type.ident ++ " " ++ ident ++ ";")]
  | .declare type ident (some init) _ =>
    [blanks depth (spelling type.ident ++ " " ++ ident ++ " = " ++ init.text ++ ";")]
  | .branch cond thenBlock none _ =>
    [blanks depth ("if (" ++ cond.text ++ ") \x7b")] ++ linesAll spelling (depth + 1) thenBlock ++
      [blanks depth "\x7d"]
  | .branch cond thenBlock (some elseBlock) _ =>
    [blanks depth ("if (" ++ cond.text ++ ") \x7b")] ++ linesAll spelling (depth + 1) thenBlock ++
      [blanks depth "\x7d else \x7b"] ++ linesAll spelling (depth + 1) elseBlock ++
      [blanks depth "\x7d"]

def linesAll (spelling : String → String) (depth : Nat) : List Stmt → List String
  | [] => []
  | s :: rest => lines spelling depth s ++ linesAll spelling depth rest

end

/-- The text of statements at an indentation. -/
def rendering (spelling : String → String) (depth : Nat) (ss : List Stmt) : String :=
  String.join ((linesAll spelling depth ss).map (· ++ "\n"))

mutual

/-- The names of the types of the local variables in a statement, at any depth. -/
def localTypes : Stmt → List String
  | .eval .. => []
  | .ret .. => []
  | .assign .. => []
  | .declare type .. => [type.ident]
  | .branch _ thenBlock none _ => localTypesAll thenBlock
  | .branch _ thenBlock (some elseBlock) _ => localTypesAll thenBlock ++ localTypesAll elseBlock

def localTypesAll : List Stmt → List String
  | [] => []
  | s :: rest => localTypes s ++ localTypesAll rest

end

variable {f g : String → String}

mutual

theorem lines_congr : ∀ (depth : Nat) (s : Stmt), (∀ name ∈ s.localTypes, f name = g name) →
    s.lines f depth = s.lines g depth
  | _, .eval .., _ => rfl
  | _, .ret none _, _ => rfl
  | _, .ret (some _) _, _ => rfl
  | _, .assign .., _ => rfl
  | _, .declare type ident none _, h => by
      simp only [lines, h type.ident List.mem_cons_self]
  | _, .declare type ident (some init) _, h => by
      simp only [lines, h type.ident List.mem_cons_self]
  | depth, .branch cond thenBlock none _, h => by
      simp only [lines, linesAll_congr (depth + 1) thenBlock h]
  | depth, .branch cond thenBlock (some elseBlock) _, h => by
      obtain ⟨hthen, helse⟩ := List.forall_mem_append.mp h
      simp only [lines, linesAll_congr (depth + 1) thenBlock hthen,
        linesAll_congr (depth + 1) elseBlock helse]

/-- Nothing but the spellings of the local variables' types is looked at. -/
theorem linesAll_congr : ∀ (depth : Nat) (ss : List Stmt),
    (∀ name ∈ localTypesAll ss, f name = g name) → linesAll f depth ss = linesAll g depth ss
  | _, [], _ => rfl
  | depth, s :: rest, h => by
      obtain ⟨hs, hrest⟩ := List.forall_mem_append.mp h
      simp only [linesAll, lines_congr depth s hs, linesAll_congr depth rest hrest]

end

end Stmt

/-! ### Writing renders -/

namespace Code

open Body (returnText localText thenText elseText endText)

variable (spelling : String → String)

mutual

theorem write_code : ∀ (out : Listing) (s : Stmt),
    write out (s.code spelling) = out.append (s.lines spelling out.depth)
  | out, .eval expr _ => Listing.line_eq (by simp)
  | out, .ret none _ => Listing.line_eq (by simp [returnText])
  | out, .ret (some value) _ => Listing.line_eq (by simp [returnText])
  | out, .assign lhs rhs _ => Listing.line_eq (by simp)
  | out, .declare type ident none _ => Listing.line_eq (by simp [localText])
  | out, .declare type ident (some init) _ => Listing.line_eq (by simp [localText])
  | out, .branch cond thenBlock none _ => by
      have hthen : thenText cond ≠ "" := by simp [thenText]
      have hend : endText ≠ "" := by simp [endText]
      rw [Stmt.code, write, Listing.line_eq hthen, writeAll_codes, Listing.dedent_append_indent,
        Listing.line_eq hend]
      simp only [Stmt.lines, Listing.append_append, Listing.depth_append, Listing.depth_indent]
      rfl
  | out, .branch cond thenBlock (some elseBlock) _ => by
      have hthen : thenText cond ≠ "" := by simp [thenText]
      have helse : elseText ≠ "" := by simp [elseText]
      have hend : endText ≠ "" := by simp [endText]
      rw [Stmt.code, write, Listing.line_eq hthen, writeAll_codes, Listing.dedent_append_indent,
        Listing.line_eq helse, writeAll_codes, Listing.dedent_append_indent, Listing.line_eq hend]
      simp only [Stmt.lines, Listing.append_append, Listing.depth_append, Listing.depth_indent]
      rfl

theorem writeAll_codes : ∀ (out : Listing) (ss : List Stmt),
    writeAll out (Stmt.codes spelling ss) = out.append (Stmt.linesAll spelling out.depth ss)
  | out, [] => out.append_nil.symm
  | out, s :: rest => by
      simp only [Stmt.codes, writeAll, write_code out s, writeAll_codes, Listing.append_append,
        Listing.depth_append, Stmt.linesAll]

end

end Code

/-! ### Expressions -/

namespace Expr

mutual

/-- The code and the type of an expression, found in one pass over it. Names are written as the symbols
found for them are spelled. -/
def compile (t : SymbolTable) (machine : Option StateMachine) :
    Expr → Except CompileError (String × TypeSymbol)
  | .var ident location => (t.findVar ident location).map fun v => (v.code, v.type)
  | .literal value location =>
    (t.resolveType value.typeName location).map fun type => (value.text, type)
  | .call ident args location => do
    let f ← callee t machine ident location
    if f.params.length = args.length then
      let codes ← compileArgs t machine args f.params
      return (f.ident ++ "(" ++ Text.commaList codes ++ ")", f.returnType)
    else .error (.argumentCount f.ident f.params.length args.length location)
  | .binary lhs op rhs location => do
    let (left, leftType) ← compile t machine lhs
    let (right, rightType) ← compile t machine rhs
    expectType leftType rightType location
    let type ← op.result t leftType location
    return ("(" ++ left ++ " " ++ op.text ++ " " ++ right ++ ")", type)

/-- The codes of the arguments of a call, which have to fit the parameters. -/
def compileArgs (t : SymbolTable) (machine : Option StateMachine) :
    List Expr → List Param → Except CompileError (List String)
  | arg :: args, param :: params => do
    let (code, found) ← compile t machine arg
    expectType param.type found arg.location
    let codes ← compileArgs t machine args params
    return code :: codes
  | _, _ => .ok []

end

variable {t : SymbolTable} {m : Option StateMachine}

theorem ident_of_findVar (ht : t.Keyed) {ident : String} {location : Location} {v : Var}
    (h : t.findVar ident location = .ok v) : v.ident = ident := by
  simp only [SymbolTable.findVar, bind_eq_ok] at h
  obtain ⟨s, hs, h⟩ := h
  have hkey := SymbolTable.key_of_find ht hs
  cases s with
  | var w =>
      cases h
      exact congrArg Prod.fst hkey
  | type τ => cases h
  | func f => cases h

theorem ident_of_callee (ht : t.Keyed) (hm : ∀ machine, m = some machine → machine.roster.Valid)
    {ident : String} {location : Location} {f : Func} (h : callee t m ident location = .ok f) :
    f.ident = ident := by
  obtain ⟨own, hown, h⟩ := bind_eq_ok.mp h
  cases own with
  | some g =>
      cases h
      cases m with
      | none => cases hown
      | some machine =>
          rw [ownFunc, StateMachine.findFunc, (hm machine rfl).find_eq] at hown
          have hfound := List.find?_some (Except.ok.inj hown)
          exact of_decide_eq_true hfound
  | none =>
      simp only [SymbolTable.findFunc, bind_eq_ok] at h
      obtain ⟨s, hs, h⟩ := h
      have hkey := SymbolTable.key_of_find ht hs
      cases s with
      | func g =>
          cases h
          exact congrArg Prod.fst hkey
      | type τ => cases h
      | var v => cases h

mutual

/-- The code that is found along with the type is the text, which needs no symbols. -/
theorem compile_eq_infer (ht : t.Keyed) (hm : ∀ machine, m = some machine → machine.roster.Valid) :
    ∀ e : Expr, e.compile t m = (e.infer t m).map fun type => (e.text, type)
  | .var ident location => by
      unfold compile infer
      cases h : t.findVar ident location with
      | error e => rfl
      | ok v =>
          rw [← ident_of_findVar ht h]
          rfl
  | .literal value location => by
      unfold compile infer
      cases t.resolveType value.typeName location <;> rfl
  | .call ident args location => by
      unfold compile infer
      cases h : callee t m ident location with
      | error e => rfl
      | ok f =>
          rw [← ident_of_callee ht hm h]
          simp only [bind, Except.bind]
          split
          · rename_i hlength
            rw [compileArgs_eq_checkArgs ht hm args f.params hlength]
            cases checkArgs t m args f.params <;> rfl
          · rfl
  | .binary lhs op rhs location => by
      unfold compile infer
      rw [compile_eq_infer ht hm lhs, compile_eq_infer ht hm rhs]
      cases infer t m lhs with
      | error e => rfl
      | ok left =>
          cases infer t m rhs with
          | error e => rfl
          | ok right =>
              simp only [bind, Except.bind, Except.map]
              cases expectType left right location with
              | error e => rfl
              | ok _ => cases op.result t left location <;> rfl

theorem compileArgs_eq_checkArgs (ht : t.Keyed)
    (hm : ∀ machine, m = some machine → machine.roster.Valid) :
    ∀ (args : List Expr) (params : List Param), params.length = args.length →
      compileArgs t m args params = (checkArgs t m args params).map fun _ => texts args
  | [], _, _ => rfl
  | _ :: _, [], h => by cases h
  | arg :: args, param :: params, h => by
      unfold compileArgs checkArgs
      rw [compile_eq_infer ht hm arg]
      cases infer t m arg with
      | error e => rfl
      | ok found =>
          simp only [bind, Except.bind, Except.map]
          cases expectType param.type found arg.location with
          | error e => rfl
          | ok _ =>
              dsimp only
              rw [compileArgs_eq_checkArgs ht hm args params (Nat.succ.inj h)]
              cases checkArgs t m args params <;> rfl

end

end Expr

/-! ### Bodies -/

namespace Body

variable (c : BodyContext)

mutual

theorem findType?_generateOne : ∀ (t : SymbolTable) (out : Listing) (s : Stmt),
    (generateOne c t out s).error = none → ∀ name ∈ s.localTypes, ∃ τ, t.findType? name = some τ
  | _, _, .eval .., _, _, hname => by cases hname
  | _, _, .ret .., _, _, hname => by cases hname
  | _, _, .assign .., _, _, hname => by cases hname
  | t, out, .declare type ident init location, h, name, hname => by
      obtain ⟨symbol, u, hd, -⟩ := declare_accepted h
      simp only [BodyContext.declareLocal, bind_eq_ok] at hd
      obtain ⟨τ, hτ, -⟩ := hd
      rw [List.mem_singleton.mp hname]
      exact ⟨τ, SymbolTable.resolveType_ok_iff.mp hτ⟩
  | t, out, .branch cond thenBlock none location, h, name, hname => by
      obtain ⟨-, he, -⟩ := branch_accepted h
      exact findType?_generate t.push _ thenBlock he name hname
  | t, out, .branch cond thenBlock (some elseBlock) location, h, name, hname => by
      obtain ⟨-, he, he', -⟩ := branchElse_accepted h
      rcases List.mem_append.mp hname with hname | hname
      · exact findType?_generate t.push _ thenBlock he name hname
      · obtain ⟨τ, hτ⟩ := findType?_generate _ _ elseBlock he' name hname
        have hkept : Grown none Untouched t (thenOutcome c t out cond thenBlock).table :=
          kept_block (grown_generate c t.push _ thenBlock)
        exact ⟨τ, (hkept.findType? name).symm.trans hτ⟩

theorem findType?_generate : ∀ (t : SymbolTable) (out : Listing) (ss : List Stmt),
    (generate c t out ss).error = none →
      ∀ name ∈ Stmt.localTypesAll ss, ∃ τ, t.findType? name = some τ
  | _, _, [], _, _, hname => by cases hname
  | t, out, s :: rest, h, name, hname => by
      obtain ⟨he, heq⟩ := cons_accepted h
      rw [heq] at h
      rcases List.mem_append.mp hname with hname | hname
      · exact findType?_generateOne t out s he name hname
      · obtain ⟨τ, hτ⟩ := findType?_generate _ _ rest h name hname
        exact ⟨τ, ((grown_generateOne c t out s).findType? name).symm.trans hτ⟩

end

/-- Each expression of an accepted body is compiled to its text, in a table where symbols are found under
their own names. -/
theorem compile_checked {t : SymbolTable} {out : Listing} {ss : List Stmt} (ht : t.Keyed)
    (hm : ∀ m, c.machine = some m → m.roster.Valid) (h : (generate c t out ss).error = none) :
    ∀ k ∈ checked c t out ss, ∃ τ, k.expr.compile k.table c.machine = .ok (k.expr.text, τ) := by
  intro k hk
  have hkeyed : k.table.Keyed :=
    table_checked c (P := SymbolTable.Keyed) ⟨fun _ h => h.push, fun _ _ hgrown h => h.grown hgrown⟩
      t out ss ht k hk
  obtain ⟨τ, hτ⟩ := inferred_of_generate c t out ss h k hk
  exact ⟨τ, by rw [Expr.compile_eq_infer hkeyed hm, hτ]; rfl⟩

/-- What an accepted body appends is what its statements are rendered as, at the indentation that was at
hand and is at hand again afterwards. -/
theorem listing_eq_append {t : SymbolTable} {out : Listing} {ss : List Stmt}
    (h : (generate c t out ss).error = none) :
    (generate c t out ss).listing = out.append (Stmt.linesAll t.spelling out.depth ss) := by
  rw [listing_generate c t out ss h, Code.writeAll_codes]

variable {c}

/-- The text of an accepted body is the rendering of its statements, which depends on nothing but the
spellings of the types of its local variables: so another run that accepts the statements and spells these
types alike appends the same text. Each expression is written as the symbols found for its names are
spelled, which is as it stands in the statement. -/
theorem generate_renders (t : SymbolTable) (out : Listing) (ss : List Stmt)
    (h : (generate c t out ss).error = none) :
    (generate c t out ss).listing =
      { lines := out.lines ++ Stmt.linesAll t.spelling out.depth ss, depth := out.depth } ∧
    (generate c t out ss).listing.text = out.text ++ Stmt.rendering t.spelling out.depth ss ∧
    (∀ name ∈ Stmt.localTypesAll ss,
      ∃ τ, t.findType? name = some τ ∧ t.spelling name = τ.cIdent) ∧
    (∀ (c' : BodyContext) (t' : SymbolTable) (out' : Listing),
      (generate c' t' out' ss).error = none → out'.depth = out.depth →
      (∀ name ∈ Stmt.localTypesAll ss, t'.spelling name = t.spelling name) →
      (generate c' t' out' ss).listing.text =
        out'.text ++ Stmt.rendering t.spelling out.depth ss) ∧
    (t.Keyed → (∀ m, c.machine = some m → m.roster.Valid) → ∀ k ∈ checked c t out ss,
      ∃ τ, k.expr.compile k.table c.machine = .ok (k.expr.text, τ)) := by
  refine ⟨listing_eq_append c h, ?_, fun name hname => ?_, ?_, fun ht hm => compile_checked c ht hm h⟩
  · rw [listing_eq_append c h, Listing.text_append]
    rfl
  · obtain ⟨τ, hτ⟩ := findType?_generate c t out ss h name hname
    refine ⟨τ, hτ, ?_⟩
    unfold SymbolTable.spelling
    rw [hτ]
  · intro c' t' out' h' hdepth hspelling
    rw [listing_eq_append c' h', Listing.text_append, hdepth,
      Stmt.linesAll_congr out.depth ss hspelling]
    rfl

/-- A body with a block in a block, that calls a function and declares variables. -/
def twoWays : List Stmt := [
  .declare { ident := "State" } "next" (some (.call "step" [.var "s" {}, .literal (.int 1) {}] {})) {},
  .branch (.binary (.var "next" {}) .eq (.var "s" {}) {})
    [.eval (.call "step" [.var "next" {}, .literal (.int 2) {}] {}) {}]
    (some [
      .declare { ident := "int" } "n"
        (some (.binary (.literal (.int 1) {}) .add (.literal (.int 2) {}) {})) {},
      .branch (.literal (.bool true) {}) [.assign (.var "s" {}) (.var "next" {}) {}] none {}]) {}]

def twoWaysText : String :=
  "    State next = step(s, 1);\n    if ((next == s)) \x7b\n        step(next, 2);\n    \x7d else \x7b\n" ++
  "        int n = (1 + 2);\n        if (true) \x7b\n            s = next;\n        \x7d\n    \x7d\n"

/-- The function `step` on this type of states. -/
def stepOn (state : TypeSymbol) : Func :=
  { ident := "step", returnType := state
    params := [⟨state, "s"⟩, ⟨.builtin intName none, "n"⟩] }

/-- The table at the start of a body with the parameter `s`, where the types `int`, `bool` and this one are
in scope, and the function `step`. -/
def stepTable (state : TypeSymbol) : SymbolTable :=
  ((((SymbolTable.initial.bind (.type (.builtin intName none))).bind
    (.type (.builtin boolName none))).bind (.type state)).bind (.func (stepOn state))).push.bind
    (.var { ident := "s", type := state })

/-- A free-standing function without result. -/
def freeStanding : BodyContext := { machine := none, returnType := .void }

/-- A function with a result of a machine that has a function `step` of its own. -/
def inMachine (state : TypeSymbol) : BodyContext where
  machine := some
    { ident := "L1", roster := { items := [stepOn state], positions := [("step", 0)] } }
  returnType := state

def recordState : TypeSymbol := { ident := "State", kind := .record [] }

def enumState : TypeSymbol := { ident := "State", kind := .enumeration ["I", "M"] }

/-- The body has the same text in a function of a machine and in a free-standing one, whatever the states
are. -/
theorem generate_renders_twoWays :
    (generate freeStanding (stepTable recordState) { depth := 1 } twoWays).listing.text = twoWaysText ∧
    (generate (inMachine enumState) (stepTable enumState) { depth := 1 } twoWays).listing.text =
      twoWaysText ∧
    ∀ k ∈ checked freeStanding (stepTable recordState) { depth := 1 } twoWays,
      ∃ τ, k.expr.compile k.table none = .ok (k.expr.text, τ) := by
  have hfree : (generate freeStanding (stepTable recordState) { depth := 1 } twoWays).error = none := by
    decide +kernel
  have hmember : (generate (inMachine enumState) (stepTable enumState) { depth := 1 } twoWays).error =
      none := by
    decide +kernel
  have hrendering : Stmt.rendering (stepTable recordState).spelling 1 twoWays = twoWaysText := by
    decide +kernel
  have hspelling : ∀ name ∈ Stmt.localTypesAll twoWays,
      (stepTable enumState).spelling name = (stepTable recordState).spelling name := by
    decide +kernel
  have hkeyed : (stepTable recordState).Keyed :=
    (((((SymbolTable.Sound.initial.keyed.bind _).bind _).bind _).bind _).push).bind _
  obtain ⟨-, htext, -, halike, hchecked⟩ :=
    generate_renders (stepTable recordState) { depth := 1 } twoWays hfree
  have hvalid : ∀ m, freeStanding.machine = some m → m.roster.Valid := by
    rintro m ⟨⟩
  refine ⟨?_, ?_, hchecked hkeyed hvalid⟩
  · rw [htext, hrendering]
    exact String.empty_append
  · rw [halike (inMachine enumState) (stepTable enumState) { depth := 1 } hmember rfl hspelling,
      hrendering]
    exact String.empty_append

end Body

end Coherence
