import Coherence.Session
import Mathlib.Tactic.SplitIfs
/-!
# Redaction

Redaction takes the texts of descriptions out of declarations and of all that they compile into, and leaves
that there are descriptions. What is found, bound and checked is the same with and without those texts, up
to redaction: this module has it for symbol tables and machines, for the types of expressions
(`Expr.infer_redact`) and for function bodies (`Body.text_redact`).
-/

namespace Coherence

/-! ### Attributes -/

/-- The pairs of a declaration without the text of its description. -/
def Pairs.redact (pairs : Pairs) : Pairs where
  entries := pairs.entries.map fun e => (e.1, if e.1 = "desc" then "" else e.2)
  sorted := by
    have hnames : (pairs.entries.map fun e => (e.1, if e.1 = "desc" then "" else e.2)).map Prod.fst =
        pairs.entries.map Prod.fst := by simp
    rw [hnames]
    exact pairs.sorted

namespace Attributes

def redact (a : Attributes) : Attributes := { a with desc := a.desc.map fun _ => "" }

theorem addPair_redact (a : Attributes) (key value : String) :
    a.redact.addPair key (if key = "desc" then "" else value) = (a.addPair key value).redact := by
  unfold addPair
  by_cases hdesc : key = "desc"
  · subst hdesc
    rfl
  · simp only [if_neg hdesc]
    split_ifs <;> rfl

theorem ofPairs_redact (pairs : Pairs) : ofPairs pairs.redact = (ofPairs pairs).redact := by
  unfold ofPairs Pairs.redact
  rw [List.foldl_map]
  have hfold : ∀ (entries : List (String × String)) (a : Attributes),
      entries.foldl (fun a e => a.addPair e.1 (if e.1 = "desc" then "" else e.2)) a.redact =
        (entries.foldl (fun a e => a.addPair e.1 e.2) a).redact := by
    intro entries
    induction entries with
    | nil => exact fun a => rfl
    | cons e entries ih =>
        intro a
        rw [List.foldl_cons, List.foldl_cons, addPair_redact, ih]
  exact hfold pairs.entries {}

end Attributes

/-! ### Symbols -/

def TypeSymbol.redact (τ : TypeSymbol) : TypeSymbol := { τ with attributes := τ.attributes.redact }

def TypeDef.redact (d : TypeDef) : TypeDef := { d with symbol := d.symbol.redact }

def Param.redact (p : Param) : Param := { p with type := p.type.redact }

/-- The function, its own attributes and the types of its signature redacted. -/
def Func.redact (f : Func) : Func :=
  { f with
    returnType := f.returnType.redact
    params := f.params.map Param.redact
    attributes := f.attributes.redact }

def Var.redact (v : Var) : Var := { v with type := v.type.redact }

/-- The symbol without the text of any description. -/
def Symbol.redact : Symbol → Symbol
  | .type τ => .type τ.redact
  | .func f => .func f.redact
  | .var v => .var v.redact

namespace Symbol

@[simp]
theorem name_redact (s : Symbol) : s.redact.name = s.name := by cases s <;> rfl

@[simp]
theorem kind_redact (s : Symbol) : s.redact.kind = s.kind := by cases s <;> rfl

@[simp]
theorem key_redact (s : Symbol) : s.redact.key = s.key := by cases s <;> rfl

@[simp]
theorem location_redact (s : Symbol) : s.redact.location = s.location := by cases s <;> rfl

end Symbol

/-! ### Symbol tables -/

def Frame.redact (f : Frame) : Frame := { f with symbols := f.symbols.map fun e => (e.1, e.2.redact) }

theorem Frame.find?_redact (f : Frame) (name : String) (kind : SymbolKind) :
    f.redact.find? name kind = (f.find? name kind).map Symbol.redact := by
  unfold Frame.find? Frame.redact
  induction f.symbols with
  | nil => rfl
  | cons e symbols ih =>
      rw [List.map_cons, List.lookup_cons, List.lookup_cons, ih]
      cases (name, kind) == e.1 <;> rfl

def SymbolTable.redact (t : SymbolTable) : SymbolTable :=
  { t with top := t.top.redact, outer := t.outer.map Frame.redact }

namespace SymbolTable

variable (t : SymbolTable)

@[simp]
theorem depth_redact : t.redact.depth = t.depth := by simp [depth, frames, redact]

theorem push_redact (owner : Option String) : t.redact.push owner = (t.push owner).redact := rfl

theorem pop_redact : t.redact.pop = t.pop.map redact := by
  unfold pop
  rw [depth_redact]
  obtain ⟨top, outer, opened, fieldTypes⟩ := t
  cases outer <;> rfl

theorem close_redact : t.redact.close = t.close.redact := by
  unfold close
  rw [pop_redact]
  cases t.pop <;> rfl

theorem bind_redact (s : Symbol) : t.redact.bind s.redact = (t.bind s).redact := by
  unfold bind
  rw [Symbol.key_redact]
  rfl

theorem declare_redact (s : Symbol) : t.redact.declare s.redact = (t.declare s).map redact := by
  unfold declare
  rw [bind_redact, show t.redact.top = t.top.redact from rfl, Frame.find?_redact, Symbol.name_redact,
    Symbol.kind_redact, Symbol.location_redact]
  cases t.top.find? s.name s.kind <;> rfl

theorem lookup_redact (name : String) (kind : SymbolKind) :
    t.redact.lookup name kind = (t.lookup name kind).map Symbol.redact := by
  have hframes : t.redact.frames = t.frames.map Frame.redact := rfl
  unfold lookup
  rw [hframes]
  induction t.frames with
  | nil => rfl
  | cons f fs ih =>
      rw [List.map_cons, List.findSome?_cons, List.findSome?_cons, Frame.find?_redact, ih]
      cases f.find? name kind <;> rfl

theorem find_redact (name : String) (kind : SymbolKind) (location : Location) :
    t.redact.find name kind location = (t.find name kind location).map Symbol.redact := by
  unfold find
  rw [lookup_redact]
  cases t.lookup name kind <;> rfl

theorem findType?_redact (name : String) :
    t.redact.findType? name = (t.findType? name).map TypeSymbol.redact := by
  unfold findType?
  rw [lookup_redact]
  cases t.lookup name .type with
  | none => rfl
  | some s => cases s <;> rfl

theorem resolveType_redact (name : String) (location : Location) :
    t.redact.resolveType name location = (t.resolveType name location).map TypeSymbol.redact := by
  unfold resolveType
  rw [findType?_redact]
  cases t.findType? name <;> rfl

theorem findFunc_redact (name : String) (location : Location) :
    t.redact.findFunc name location = (t.findFunc name location).map Func.redact := by
  unfold findFunc
  rw [find_redact]
  cases t.find name .func location with
  | error e => rfl
  | ok s => cases s <;> rfl

theorem findVar_redact (name : String) (location : Location) :
    t.redact.findVar name location = (t.findVar name location).map Var.redact := by
  unfold findVar
  rw [find_redact]
  cases t.find name .var location with
  | error e => rfl
  | ok s => cases s <;> rfl

theorem resolveField_redact (τ : TypeSymbol) (position : Nat) (field : String) (found : FieldType) :
    t.redact.resolveField τ.redact position field found =
      (t.resolveField τ position field found).map redact := by
  have hfields : t.redact.foundFields τ.redact = t.foundFields τ := rfl
  unfold resolveField
  rw [hfields]
  split_ifs <;> rfl

end SymbolTable

/-! ### Machines -/

/-- The roster with every item changed; an item must keep its name. -/
def Roster.map {α : Type} {key : α → String} (f : α → α) (r : Roster α key) : Roster α key :=
  { r with items := r.items.map f }

namespace Roster

variable {α : Type} {key : α → String} {f : α → α}

theorem find_map (r : Roster α key) (name : String) :
    (r.map f).find name = (r.find name).map (Option.map f) := by
  unfold find map
  cases r.positions.lookup name with
  | none => rfl
  | some i =>
      simp only [List.getElem?_map]
      cases r.items[i]? <;> rfl

theorem add?_map (hkey : ∀ item, key (f item) = key item) (r : Roster α key) (item : α) :
    (r.map f).add? (f item) = (r.add? item).map (map f) := by
  unfold add? contains map
  simp only [hkey]
  split_ifs <;> simp

end Roster

def StateMachine.redact (m : StateMachine) : StateMachine :=
  { m with
    attributes := m.attributes.redact
    roster := m.roster.map Func.redact
    types := m.types.map TypeDef.redact }

namespace StateMachine

theorem findFunc_redact (m : StateMachine) (ident : String) :
    m.redact.findFunc ident = (m.findFunc ident).map (Option.map Func.redact) := by
  unfold findFunc
  rw [show m.redact.roster = m.roster.map Func.redact from rfl, Roster.find_map]
  cases m.roster.find ident <;> rfl

theorem addFunc_redact (m : StateMachine) (f : Func) :
    m.redact.addFunc f.redact = (m.addFunc f).map redact := by
  unfold addFunc
  rw [show m.redact.roster = m.roster.map Func.redact from rfl,
    Roster.add?_map (f := Func.redact) fun _ => rfl]
  cases m.roster.add? f <;> rfl

theorem addType_redact (m : StateMachine) (d : TypeDef) :
    m.redact.addType d.redact = (m.addType d).redact := by
  unfold addType redact
  rw [List.map_append]
  rfl

end StateMachine

def MachineRegistry.redact (r : MachineRegistry) : MachineRegistry := r.map StateMachine.redact

theorem MachineRegistry.register_redact (r : MachineRegistry) (m : StateMachine) :
    r.redact.register m.redact = (r.register m).map redact := by
  unfold register redact
  rw [Roster.add?_map (f := StateMachine.redact) fun _ => rfl]
  cases r.add? m <;> rfl

/-! ### Types of expressions -/

section expressions

variable (t : SymbolTable) (machine : Option StateMachine)

theorem expectType_redact (expected found : TypeSymbol) (location : Location) :
    expectType expected.redact found.redact location = expectType expected found location := rfl

theorem callee_redact (ident : String) (location : Location) :
    callee t.redact (machine.map StateMachine.redact) ident location =
      (callee t machine ident location).map Func.redact := by
  have hown : ownFunc (machine.map StateMachine.redact) ident =
      (ownFunc machine ident).map (Option.map Func.redact) := by
    cases machine with
    | none => rfl
    | some m => exact m.findFunc_redact ident
  unfold callee
  rw [hown, t.findFunc_redact]
  cases ownFunc machine ident with
  | error e => rfl
  | ok found => cases found <;> rfl

theorem BinaryOp.result_redact (op : BinaryOp) (operand : TypeSymbol) (location : Location) :
    op.result t.redact operand.redact location =
      (op.result t operand location).map TypeSymbol.redact := by
  unfold BinaryOp.result
  cases op.operandName with
  | none => exact t.resolveType_redact boolName location
  | some name =>
      simp only [t.resolveType_redact]
      cases t.resolveType name location with
      | error e => rfl
      | ok type =>
          show (expectType type.redact operand.redact location >>= fun _ => _) = _
          rw [expectType_redact]
          show _ = Except.map _ (expectType type operand location >>= fun _ => _)
          cases expectType type operand location <;> rfl

namespace Expr

mutual

/-- An expression has the same type with and without the descriptions in scope, up to redaction, or the
same is wrong with it. -/
theorem infer_redact : ∀ e : Expr, e.infer t.redact (machine.map StateMachine.redact) =
    (e.infer t machine).map TypeSymbol.redact
  | .var ident location => by
      simp only [infer, t.findVar_redact]
      cases t.findVar ident location <;> rfl
  | .literal value location => by
      simp only [infer, t.resolveType_redact]
  | .call ident args location => by
      simp only [infer, callee_redact]
      cases callee t machine ident location with
      | error e => rfl
      | ok f =>
          have hparams : f.redact.params = f.params.map Param.redact := rfl
          have hargs := checkArgs_redact args f.params
          simp only [Except.map, bind, Except.bind, hparams, List.length_map, hargs]
          split_ifs
          · cases checkArgs t machine args f.params <;> rfl
          · rfl
  | .binary lhs op rhs location => by
      simp only [infer, infer_redact lhs, infer_redact rhs]
      cases lhs.infer t machine with
      | error e => rfl
      | ok left =>
          cases rhs.infer t machine with
          | error e => rfl
          | ok right =>
              simp only [Except.map, bind, Except.bind, expectType_redact, BinaryOp.result_redact]
              cases expectType left right location <;> rfl

theorem checkArgs_redact : ∀ (args : List Expr) (params : List Param),
    checkArgs t.redact (machine.map StateMachine.redact) args (params.map Param.redact) =
      checkArgs t machine args params
  | [], _ => by simp only [checkArgs]
  | _ :: _, [] => by simp only [List.map_nil, checkArgs]
  | arg :: args, param :: params => by
      have htype : param.redact.type = param.type.redact := rfl
      simp only [List.map_cons, checkArgs, infer_redact arg, checkArgs_redact args params, htype]
      cases arg.infer t machine with
      | error e => rfl
      | ok found => simp only [Except.map, bind, Except.bind, expectType_redact]

end

end Expr

end expressions

/-! ### Bodies -/

def BodyContext.redact (c : BodyContext) : BodyContext where
  machine := c.machine.map StateMachine.redact
  returnType := c.returnType.redact

def BodyOutcome.redact (o : BodyOutcome) : BodyOutcome := { o with table := o.table.redact }

theorem BodyOutcome.close_redact (o : BodyOutcome) : o.redact.close = o.close.redact := by
  unfold close redact
  rw [SymbolTable.close_redact]

namespace BodyContext

variable (c : BodyContext) (t : SymbolTable)

theorem infer_redact (e : Expr) : e.infer t.redact c.redact.machine =
    (e.infer t c.machine).map TypeSymbol.redact := Expr.infer_redact t c.machine e

theorem checkReturn_redact (location : Location) (value : Option Expr) :
    c.redact.checkReturn t.redact location value = c.checkReturn t location value := by
  cases value with
  | none => rfl
  | some value =>
      simp only [checkReturn, infer_redact]
      cases value.infer t c.machine <;> rfl

theorem checkAssign_redact (lhs rhs : Expr) (location : Location) :
    c.redact.checkAssign t.redact lhs rhs location = c.checkAssign t lhs rhs location := by
  cases lhs with
  | var ident place =>
      simp only [checkAssign, infer_redact]
      cases (Expr.var ident place).infer t c.machine with
      | error e => rfl
      | ok left => cases rhs.infer t c.machine <;> rfl
  | literal _ _ => rfl
  | call _ _ _ => rfl
  | binary _ _ _ _ => rfl

theorem checkCond_redact (cond : Expr) : c.redact.checkCond t.redact cond = c.checkCond t cond := by
  simp only [checkCond, infer_redact, t.resolveType_redact]
  cases cond.infer t c.machine with
  | error e => rfl
  | ok found => cases t.resolveType boolName cond.location <;> rfl

theorem checkInit_redact (type : TypeSymbol) (init : Option Expr) :
    c.redact.checkInit t.redact type.redact init = c.checkInit t type init := by
  cases init with
  | none => rfl
  | some init =>
      simp only [checkInit, infer_redact]
      cases init.infer t c.machine <;> rfl

theorem declareLocal_redact (type : TypeName) (ident : String) (init : Option Expr) (location : Location) :
    c.redact.declareLocal t.redact type ident init location =
      (c.declareLocal t type ident init location).map fun r => (r.1.redact, r.2.redact) := by
  unfold declareLocal
  rw [t.resolveType_redact]
  cases t.resolveType type.ident type.location with
  | error e => rfl
  | ok symbol =>
      have hdeclare := t.declare_redact (.var { ident, location, type := symbol })
      simp only [Except.map, bind, Except.bind, checkInit_redact]
      cases checkInit c t symbol init with
      | error e => rfl
      | ok _ =>
          simp only [show (Symbol.var { ident, location, type := symbol.redact }) =
            (Symbol.var { ident, location, type := symbol }).redact from rfl, hdeclare]
          cases t.declare (.var { ident, location, type := symbol }) <;> rfl

end BodyContext

namespace Body

theorem emit_redact (t : SymbolTable) (out : Listing) (line : String) (check : Except CompileError Unit) :
    emit t.redact out line check = (emit t out line check).redact := by
  cases check <;> rfl

variable (c : BodyContext)

mutual

theorem generateOne_redact : ∀ (t : SymbolTable) (out : Listing) (s : Stmt),
    generateOne c.redact t.redact out s = (generateOne c t out s).redact
  | t, out, .eval expr _ => by
      simp only [generateOne, c.infer_redact, emit_redact]
      cases expr.infer t c.machine <;> rfl
  | t, out, .ret value location => by
      simp only [generateOne, c.checkReturn_redact, emit_redact]
  | t, out, .assign lhs rhs location => by
      simp only [generateOne, c.checkAssign_redact, emit_redact]
  | t, out, .declare type ident init location => by
      simp only [generateOne, c.declareLocal_redact]
      cases c.declareLocal t type ident init location <;> rfl
  | t, out, .branch cond thenBlock none location => by
      simp only [generateOne, c.checkCond_redact, t.push_redact, generate_redact _ _ thenBlock,
        BodyOutcome.close_redact]
      cases c.checkCond t cond with
      | error e => rfl
      | ok _ =>
          generalize (generate c t.push (out.line (thenText cond)).indent thenBlock).close = first
          obtain ⟨table, listing, error⟩ := first
          cases error <;> rfl
  | t, out, .branch cond thenBlock (some elseBlock) location => by
      simp only [generateOne, c.checkCond_redact, t.push_redact, generate_redact _ _ thenBlock,
        BodyOutcome.close_redact]
      cases c.checkCond t cond with
      | error e => rfl
      | ok _ =>
          generalize (generate c t.push (out.line (thenText cond)).indent thenBlock).close = first
          obtain ⟨table, listing, error⟩ := first
          cases error with
          | some e => rfl
          | none =>
              simp only [BodyOutcome.redact, table.push_redact, generate_redact _ _ elseBlock]
              generalize generate c table.push (listing.dedent.line elseText).indent elseBlock = block
              have hclose := block.close_redact
              simp only [BodyOutcome.redact] at hclose ⊢
              simp only [hclose]
              generalize block.close = second
              obtain ⟨table', listing', error'⟩ := second
              cases error' <;> rfl

theorem generate_redact : ∀ (t : SymbolTable) (out : Listing) (ss : List Stmt),
    generate c.redact t.redact out ss = (generate c t out ss).redact
  | _, _, [] => by simp only [generate, BodyOutcome.redact]
  | t, out, s :: rest => by
      simp only [generate, generateOne_redact t out s]
      generalize generateOne c t out s = first
      obtain ⟨table, listing, error⟩ := first
      cases error with
      | some e => rfl
      | none => exact generate_redact table listing rest

end

/-- A body gets the same text with and without the descriptions in scope. -/
theorem text_redact (t : SymbolTable) (statements : List Stmt) :
    text c.redact t.redact statements = ((text c t statements).1, (text c t statements).2.redact) := by
  simp only [text, generate_redact]
  generalize generate c t { depth := 1 } statements = outcome
  obtain ⟨table, listing, error⟩ := outcome
  cases error <;> rfl

end Body

end Coherence
