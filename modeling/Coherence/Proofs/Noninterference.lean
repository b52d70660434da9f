import Coherence.Proofs.Redaction
/-!
# Descriptions decide nothing

Compiling is blind to the texts of descriptions: redacted declarations compile, in a redacted session, into
what the declarations compile into, redacted, and with the same diagnostics (`Session.compile_redact`). So
lists that differ in those texts alone have outputs that do (`Session.redact_eq_of_redact_eq`).
-/

namespace Coherence

/-! ### Declarations without the texts of descriptions -/

def Formal.redact (f : Formal) : Formal := { f with pairs := f.pairs.redact }

def FuncDecl.redact (d : FuncDecl) : FuncDecl :=
  { d with formals := d.formals.map Formal.redact, pairs := d.pairs.redact }

def TypeDecl.redact (d : TypeDecl) : TypeDecl := { d with pairs := d.pairs.redact }

namespace Decl

mutual

/-- The declaration, with its members, without the text of any description. -/
def redact : Decl → Decl
  | .func d => .func d.redact
  | .type d => .type d.redact
  | .machine ⟨ident, pairs, members, location⟩ =>
    .machine ⟨ident, pairs.redact, redactAll members, location⟩

def redactAll : List Decl → List Decl
  | [] => []
  | d :: ds => redact d :: redactAll ds

end

theorem redactAll_eq_map (ds : List Decl) : redactAll ds = ds.map redact := by
  induction ds with
  | nil => simp only [redactAll, List.map_nil]
  | cons d ds ih => simp only [redactAll, List.map_cons, ih]

end Decl

def MachineDecl.redact (d : MachineDecl Decl) : MachineDecl Decl :=
  { d with pairs := d.pairs.redact, members := d.members.map Decl.redact }

namespace Decl

theorem redact_func (d : FuncDecl) : (Decl.func d).redact = .func d.redact := by simp only [redact]

theorem redact_type (d : TypeDecl) : (Decl.type d).redact = .type d.redact := by simp only [redact]

theorem redact_machine (d : MachineDecl Decl) : (Decl.machine d).redact = .machine d.redact := by
  simp only [redact, redactAll_eq_map, MachineDecl.redact]

@[simp]
theorem ident_redact (d : Decl) : d.redact.ident = d.ident := by
  cases d <;> simp only [redact] <;> rfl

@[simp]
theorem location_redact (d : Decl) : d.redact.location = d.location := by
  cases d <;> simp only [redact] <;> rfl

end Decl

theorem FuncDecl.attributes_redact (d : FuncDecl) : d.redact.attributes = d.attributes.redact :=
  Attributes.ofPairs_redact d.pairs

theorem TypeDecl.attributes_redact (d : TypeDecl) : d.redact.attributes = d.attributes.redact :=
  Attributes.ofPairs_redact d.pairs

theorem FuncDecl.outputNames_redact (parent : Option String) (d : FuncDecl) :
    d.redact.outputNames parent = d.outputNames parent := by
  unfold outputNames isExternal
  rw [attributes_redact]
  rfl

theorem TypeDecl.outputNames_redact (parent : Option String) (d : TypeDecl) :
    d.redact.outputNames parent = d.outputNames parent := by
  unfold outputNames
  rw [attributes_redact]
  rfl

namespace Decl

mutual

/-- A declaration owes the same units whatever its description says. -/
theorem outputNames_redact : ∀ (parent : Option String) (d : Decl),
    d.redact.outputNames parent = d.outputNames parent
  | parent, .func d => by simp only [redact, outputNames, d.outputNames_redact]
  | parent, .type d => by simp only [redact, outputNames, d.outputNames_redact]
  | parent, .machine ⟨ident, _, members, _⟩ => by
      simp only [redact, outputNames, outputNamesAll_redact (some ident) members]

theorem outputNamesAll_redact : ∀ (parent : Option String) (ds : List Decl),
    outputNamesAll parent (redactAll ds) = outputNamesAll parent ds
  | _, [] => by simp only [redactAll]
  | parent, d :: ds => by
      simp only [redactAll, outputNamesAll, outputNames_redact parent d, outputNamesAll_redact parent ds]

end

end Decl

/-! ### Sites -/

def Site.redact (s : Site) : Site where
  table := s.table.redact
  machine := s.machine.map StateMachine.redact

namespace Site

theorem owner_redact (s : Site) : s.redact.owner = s.owner := by
  obtain ⟨table, machine⟩ := s
  cases machine <;> rfl

theorem addFunc_redact (s : Site) (f : Func) : s.redact.addFunc f.redact = (s.addFunc f).map redact := by
  obtain ⟨table, machine⟩ := s
  cases machine with
  | none =>
      have hdeclare := table.declare_redact (.func f)
      show (table.redact.declare (.func f.redact)).map _ = ((table.declare (.func f)).map _).map _
      rw [show Symbol.func f.redact = (Symbol.func f).redact from rfl, hdeclare]
      cases table.declare (.func f) <;> rfl
  | some m =>
      show (m.redact.addFunc f.redact).map _ = ((m.addFunc f).map _).map _
      rw [m.addFunc_redact]
      cases m.addFunc f <;> rfl

theorem addType_redact (s : Site) (d : TypeDef) : s.redact.addType d.redact = (s.addType d).redact := by
  obtain ⟨table, machine⟩ := s
  cases machine with
  | none => rfl
  | some m => exact congrArg (fun m => (⟨_, some m⟩ : Site)) (m.addType_redact d)

end Site

/-! ### Functions -/

def FuncParts.redact (parts : FuncParts) : FuncParts :=
  { parts with types := parts.types.map TypeSymbol.redact }

theorem Param.zip?_redact (types : List TypeSymbol) (names : List String) :
    Param.zip? (types.map TypeSymbol.redact) names =
      (Param.zip? types names).map (List.map Param.redact) := by
  induction types generalizing names with
  | nil => cases names <;> rfl
  | cons τ types ih =>
      cases names with
      | nil => rfl
      | cons name names =>
          show (Param.zip? (types.map TypeSymbol.redact) names).map _ =
            ((Param.zip? types names).map _).map _
          rw [ih]
          cases Param.zip? types names <;> rfl

namespace FuncDecl

theorem bindFormals_redact (t : SymbolTable) (formals : List Formal) :
    bindFormals t.redact (formals.map Formal.redact) =
      ((bindFormals t formals).1.map fun r => (r.1.map TypeSymbol.redact, r.2),
        (bindFormals t formals).2.redact) := by
  induction formals generalizing t with
  | nil => rfl
  | cons f fs ih =>
      have htype : f.redact.type = f.type := rfl
      simp only [List.map_cons, bindFormals, htype, t.resolveType_redact]
      cases t.resolveType f.type.ident f.type.location with
      | error e => rfl
      | ok type =>
          have hdeclare := t.declare_redact (.var { ident := f.ident, location := f.location, type })
          simp only [Except.map]
          rw [show t.redact.declare (.var
            { ident := f.redact.ident, location := f.redact.location, type := type.redact }) = _ from
              hdeclare]
          cases t.declare (.var { ident := f.ident, location := f.location, type }) with
          | error e => rfl
          | ok u =>
              simp only [Except.map, ih u]
              cases (bindFormals u fs).1 <;> rfl

theorem compileBody_redact (c : BodyContext) (t : SymbolTable) (body : Option (List Stmt)) :
    compileBody c.redact t.redact body = ((compileBody c t body).1, (compileBody c t body).2.redact) := by
  cases body with
  | none => rfl
  | some statements => simp only [compileBody, Body.text_redact]

theorem compileParts_redact (c : BodyContext) (t : SymbolTable) (d : FuncDecl) :
    d.redact.compileParts c.redact t.redact =
      ((d.compileParts c t).1.map FuncParts.redact, (d.compileParts c t).2.redact) := by
  have hbody : d.redact.body? = d.body? := rfl
  unfold compileParts
  rw [hbody, show d.redact.formals = d.formals.map Formal.redact from rfl, bindFormals_redact]
  obtain ⟨result, u⟩ := bindFormals t d.formals
  cases result with
  | error e => rfl
  | ok parts =>
      simp only [Except.map, compileBody_redact]
      cases (compileBody c u d.body?).1 <;> rfl

theorem assemble_redact (owner : Option String) (returnType : TypeSymbol) (d : FuncDecl)
    (parts : FuncParts) : d.redact.assemble owner returnType.redact parts.redact =
      (d.assemble owner returnType parts).map Func.redact := by
  unfold assemble
  rw [show parts.redact.types = parts.types.map TypeSymbol.redact from rfl, Param.zip?_redact,
    show parts.redact.names = parts.names from rfl, show d.redact.body? = d.body? from rfl,
    attributes_redact]
  cases Param.zip? parts.types parts.names with
  | none => rfl
  | some params => cases d.body? <;> rfl

theorem toFunc_redact (s : Site) (d : FuncDecl) :
    d.redact.toFunc s.redact = ((d.toFunc s).1.map Func.redact, (d.toFunc s).2.redact) := by
  unfold toFunc
  rw [show d.redact.returnType = d.returnType from rfl, show s.redact.table = s.table.redact from rfl,
    s.table.resolveType_redact, s.owner_redact]
  cases s.table.resolveType d.returnType.ident d.returnType.location with
  | error e => rfl
  | ok returnType =>
      have hparts := compileParts_redact { machine := s.machine, returnType } s.table.push d
      simp only [Except.map]
      rw [show BodyContext.mk s.redact.machine returnType.redact =
        BodyContext.redact { machine := s.machine, returnType } from rfl, s.table.push_redact, hparts,
        SymbolTable.close_redact]
      cases (compileParts { machine := s.machine, returnType } s.table.push d).1 with
      | error e => rfl
      | ok parts => exact congrArg (·, _) (assemble_redact s.owner returnType d parts)

theorem compile_redact (s : Site) (d : FuncDecl) :
    d.redact.compile s.redact = ((d.compile s).1.map Func.redact, (d.compile s).2.redact) := by
  unfold compile
  rw [toFunc_redact]
  obtain ⟨result, table⟩ := d.toFunc s
  cases result with
  | error e => rfl
  | ok f =>
      have hadd := Site.addFunc_redact { s with table } f
      simp only [Except.map]
      rw [show Site.mk table.redact s.redact.machine = Site.redact { s with table } from rfl, hadd]
      cases Site.addFunc { s with table } f <;> rfl

end FuncDecl

/-! ### Types -/

def Registration.redact : Registration → Registration
  | .pending => .pending
  | .declared type => .declared type.redact
  | .rejected e => .rejected e

namespace TypeDecl

theorem symbol_redact (machine : Option String) (d : TypeDecl) :
    d.redact.symbol machine = (d.symbol machine).redact := by
  unfold symbol
  rw [attributes_redact]
  rfl

theorem predeclare_redact (t : SymbolTable) (machine : Option String) (d : TypeDecl)
    (state : Registration) : d.redact.predeclare t.redact machine state.redact =
      ((d.predeclare t machine state).1.redact, (d.predeclare t machine state).2.redact) := by
  cases state with
  | declared type => rfl
  | rejected e => rfl
  | pending =>
      have hdeclare := t.declare_redact (.type (t.adopt (d.symbol machine)))
      unfold predeclare Registration.redact
      simp only [symbol_redact]
      rw [show Symbol.type (t.redact.adopt (d.symbol machine).redact) =
        (Symbol.type (t.adopt (d.symbol machine))).redact from rfl, hdeclare]
      cases t.declare (.type (t.adopt (d.symbol machine))) <;> rfl

theorem resolveFields_redact (type : TypeSymbol) (t : SymbolTable) (position : Nat) (fields : List Field) :
    resolveFields type.redact t.redact position fields =
      ((resolveFields type t position fields).1, (resolveFields type t position fields).2.redact) := by
  induction fields generalizing t position with
  | nil => rfl
  | cons f fs ih =>
      unfold resolveFields
      rw [t.resolveType_redact]
      cases t.resolveType f.typeName f.location with
      | error e => rfl
      | ok found =>
          simp only [Except.map]
          rw [show found.redact.asFieldType = found.asFieldType from rfl, t.resolveField_redact]
          cases t.resolveField type position f.ident found.asFieldType with
          | error e => rfl
          | ok u =>
              have hdeclare := u.declare_redact
                (.var { ident := f.ident, location := f.location, type := found })
              simp only [Except.map]
              rw [show Symbol.var { ident := f.ident, location := f.location, type := found.redact } =
                (Symbol.var { ident := f.ident, location := f.location, type := found }).redact from rfl,
                hdeclare]
              cases u.declare (.var { ident := f.ident, location := f.location, type := found }) with
              | error e => rfl
              | ok v => exact ih v (position + 1)

theorem bindValues_redact (type : TypeSymbol) (t : SymbolTable) (values : List String) :
    bindValues type.redact t.redact values =
      ((bindValues type t values).1, (bindValues type t values).2.redact) := by
  induction values generalizing t with
  | nil => rfl
  | cons v vs ih =>
      have hdeclare := t.declare_redact (.var { ident := v, location := type.location, type })
      unfold bindValues
      rw [show Symbol.var { ident := v, location := type.redact.location, type := type.redact } =
        (Symbol.var { ident := v, location := type.location, type }).redact from rfl, hdeclare]
      cases t.declare (.var { ident := v, location := type.location, type }) with
      | error e => rfl
      | ok u => exact ih u

theorem checkMembers_redact (type : TypeSymbol) (t : SymbolTable) :
    checkMembers type.redact t.redact = ((checkMembers type t).1, (checkMembers type t).2.redact) := by
  have hkind : type.redact.kind = type.kind := rfl
  unfold checkMembers
  rw [hkind]
  cases type.kind with
  | void => rfl
  | primitive => rfl
  | record fields => exact resolveFields_redact type t 0 fields
  | enumeration values => exact bindValues_redact type t values

theorem compileDeclared_redact (s : Site) (type : TypeSymbol) :
    compileDeclared s.redact type.redact =
      ((compileDeclared s type).1.map TypeDef.redact, (compileDeclared s type).2.redact) := by
  unfold compileDeclared
  rw [show s.redact.table.push = s.table.push.redact from rfl, checkMembers_redact]
  obtain ⟨result, inner⟩ := checkMembers type s.table.push
  cases result with
  | error e =>
      simp only [SymbolTable.close_redact]
      rfl
  | ok _ =>
      have hadd := Site.addType_redact { s with table := inner.close } (inner.close.define type)
      simp only [SymbolTable.close_redact]
      exact congrArg (Prod.mk _) hadd

theorem compile_redact (s : Site) (d : TypeDecl) (state : Registration) :
    d.redact.compile s.redact state.redact =
      ((d.compile s state).1.map TypeDef.redact, (d.compile s state).2.redact) := by
  unfold compile
  rw [show s.redact.table = s.table.redact from rfl, s.owner_redact, predeclare_redact]
  obtain ⟨table, state⟩ := d.predeclare s.table s.owner state
  cases state with
  | pending => rfl
  | declared type => exact compileDeclared_redact { s with table } type
  | rejected e => rfl

end TypeDecl

/-! ### Pending declarations -/

def Pending.redact : Pending → Pending
  | .func d => .func d.redact
  | .type d state => .type d.redact state.redact
  | .machine d => .machine d.redact

namespace Decl

theorem predeclare_redact (t : SymbolTable) (machine : Option String) (d : Decl) :
    d.redact.predeclare t.redact machine =
      ((d.predeclare t machine).1.redact, (d.predeclare t machine).2.redact) := by
  cases d with
  | func d => rw [redact_func]; rfl
  | machine d => rw [redact_machine]; rfl
  | type d =>
      have htype := d.predeclare_redact t machine .pending
      rw [redact_type]
      unfold predeclare
      rw [show Registration.redact .pending = .pending from rfl] at htype
      simp only [htype]
      rfl

theorem predeclareAll_redact (t : SymbolTable) (machine : Option String) (ds : List Decl) :
    predeclareAll t.redact machine (ds.map redact) =
      ((predeclareAll t machine ds).1.redact, (predeclareAll t machine ds).2.map Pending.redact) := by
  induction ds generalizing t with
  | nil => rfl
  | cons d ds ih =>
      rw [List.map_cons, predeclareAll_cons, predeclareAll_cons, predeclare_redact, ih]
      rfl

end Decl

def CompiledMachine.redact (c : CompiledMachine) : CompiledMachine :=
  { c with machine := c.machine.redact }

def Compiled.redact : Compiled → Compiled
  | .func f => .func f.redact
  | .type d => .type d.redact
  | .machine c => .machine c.redact

namespace Pending

theorem decl_redact (p : Pending) : p.redact.decl = p.decl.redact := by
  cases p with
  | func d => exact (Decl.redact_func d).symm
  | type d state => exact (Decl.redact_type d).symm
  | machine d => exact (Decl.redact_machine d).symm

theorem compileMember_redact (s : Site) (p : Pending) :
    p.redact.compileMember s.redact =
      ((p.compileMember s).1.map Compiled.redact, (p.compileMember s).2.redact) := by
  cases p with
  | func d =>
      simp only [redact, compileMember, d.compile_redact]
      cases (d.compile s).1 <;> rfl
  | type d state =>
      simp only [redact, compileMember, d.compile_redact]
      cases (d.compile s state).1 <;> rfl
  | machine d => rfl

end Pending

/-! ### Members -/

def Stage.redact (s : Stage) : Stage := { s with site := s.site.redact }

theorem Stage.attempt_redact {compile compile' : Site → Except CompileError Compiled × Site} (s : Stage)
    (d : Decl)
    (h : compile' s.site.redact = ((compile s.site).1.map Compiled.redact, (compile s.site).2.redact)) :
    s.redact.attempt compile' d.redact =
      ((s.attempt compile d).1.map Compiled.redact, (s.attempt compile d).2.redact) := by
  unfold attempt Decl.outputFiles
  rw [Decl.outputNames_redact, d.location_redact, show s.redact.site = s.site.redact from rfl,
    s.site.owner_redact, show s.redact.claimed = s.claimed from rfl, h]
  cases claimOutputs s.claimed (.ofNames (d.outputNames s.site.owner)) d.location <;> rfl

def MemberRun.redact (r : MemberRun) : MemberRun := { r with stage := r.stage.redact }

namespace MemberRun

theorem attempt_redact (r : MemberRun) (p : Pending) : r.redact.attempt p.redact =
    ((r.attempt p).1.map Compiled.redact, (r.attempt p).2.redact) := by
  unfold attempt
  rw [p.decl_redact]
  exact r.stage.attempt_redact p.decl (p.compileMember_redact r.stage.site)

theorem step_redact (r : MemberRun) (p : Pending) :
    r.redact.step p.redact = ((r.step p).1, (r.step p).2.redact) := by
  unfold step
  rw [attempt_redact, p.decl_redact, p.decl.ident_redact]
  obtain ⟨result, stage⟩ := r.attempt p
  cases result with
  | ok c => rfl
  | error e =>
      simp only [Except.map]
      split_ifs <;> rfl

theorem steps_redact (r : MemberRun) (ps : List Pending) :
    r.redact.steps (ps.map Pending.redact) = ((r.steps ps).1, (r.steps ps).2.redact) := by
  induction ps generalizing r with
  | nil => rfl
  | cons p ps ih =>
      rw [List.map_cons]
      unfold steps
      rw [step_redact]
      obtain ⟨fatal, r'⟩ := r.step p
      cases fatal with
      | some e => rfl
      | none => exact ih r'

end MemberRun

namespace MachineDecl

theorem initial_redact (d : MachineDecl Decl) : d.redact.initial = d.initial.redact := by
  unfold initial
  rw [show d.redact.pairs = d.pairs.redact from rfl, Attributes.ofPairs_redact]
  rfl

theorem start_redact (inner : SymbolTable) (d : MachineDecl Decl) :
    d.redact.start inner.redact = (d.start inner).redact := by
  unfold start
  rw [initial_redact]
  rfl

theorem compile_redact (t : SymbolTable) (d : MachineDecl Decl) : d.redact.compile t.redact =
    ((d.compile t).1.map CompiledMachine.redact, (d.compile t).2.redact) := by
  unfold compile
  rw [show d.redact.ident = d.ident from rfl, show d.redact.members = d.members.map Decl.redact from rfl,
    t.push_redact, Decl.predeclareAll_redact, initial_redact]
  obtain ⟨inner, pending⟩ := Decl.predeclareAll (t.push d.ident) (some d.ident) d.members
  simp only [start_redact, MemberRun.steps_redact]
  obtain ⟨fatal, run⟩ := (d.start inner).steps pending
  have hclose : run.redact.stage.site.table.close = run.stage.site.table.close.redact :=
    run.stage.site.table.close_redact
  have hmachine : run.redact.stage.site.machine.getD d.initial.redact =
      (run.stage.site.machine.getD d.initial).redact :=
    Option.getD_map StateMachine.redact d.initial run.stage.site.machine
  simp only [hclose, hmachine]
  cases fatal <;> rfl

end MachineDecl

theorem Pending.compile_redact (s : Site) (p : Pending) :
    p.redact.compile s.redact = ((p.compile s).1.map Compiled.redact, (p.compile s).2.redact) := by
  obtain ⟨table, machine⟩ := s
  cases machine with
  | some m =>
      have hmember := compileMember_redact ⟨table, some m⟩ p
      cases p <;> exact hmember
  | none =>
      cases p with
      | func d => exact compileMember_redact ⟨table, none⟩ (.func d)
      | type d state => exact compileMember_redact ⟨table, none⟩ (.type d state)
      | machine d =>
          show ((d.redact.compile table.redact).1.map Compiled.machine,
            (⟨(d.redact.compile table.redact).2, none⟩ : Site)) = _
          rw [d.compile_redact]
          simp only [compile]
          cases (d.compile table).1 <;> rfl

/-! ### Sessions -/

/-- The output without the text of any description; diagnostics have none. -/
def Output.redact (o : Output) : Output :=
  { o with
    functions := o.functions.map Func.redact
    types := o.types.map TypeDef.redact
    machines := o.machines.map StateMachine.redact }

theorem Func.warning?_redact (f : Func) : f.redact.warning? = f.warning? := rfl

def DeclRun.redact (r : DeclRun) : DeclRun where
  stage := r.stage.redact
  machines := r.machines.redact
  output := r.output.redact

namespace DeclRun

theorem record_redact (r : DeclRun) (d : Decl) (e : CompileError) :
    r.redact.record d.redact e = (r.record d e).map redact := by
  unfold record
  rw [d.ident_redact, d.location_redact]
  split_ifs <;> rfl

theorem attempt_redact (r : DeclRun) (p : Pending) : r.redact.attempt p.redact =
    ((r.attempt p).1.map Compiled.redact, (r.attempt p).2.redact) := by
  have hunique : r.redact.checkUnique p.redact.decl = r.checkUnique p.decl := by cases p <;> rfl
  unfold attempt
  rw [hunique, p.decl_redact]
  cases r.checkUnique p.decl with
  | error e => rfl
  | ok _ => exact r.stage.attempt_redact p.decl (p.compile_redact r.stage.site)

theorem add_redact (r : DeclRun) (d : Decl) (c : Compiled) :
    r.redact.add d.redact c.redact = (r.add d c).map redact := by
  cases c with
  | func f =>
      simp only [add, Compiled.redact, Except.map, redact, Output.redact, Output.report,
        List.map_append, f.warning?_redact, List.map_singleton]
  | type τ =>
      simp only [add, Compiled.redact, Except.map, redact, Output.redact, List.map_append,
        List.map_singleton]
  | machine c =>
      have hwarnings : c.machine.redact.functions.filterMap Func.warning? =
          c.machine.functions.filterMap Func.warning? := by
        show (c.machine.functions.map Func.redact).filterMap _ = _
        rw [List.filterMap_map]
        rfl
      have hregister := MachineRegistry.register_redact r.machines c.machine
      simp only [add, Compiled.redact, CompiledMachine.redact, d.location_redact, hwarnings]
      rw [show r.redact.machines = r.machines.redact from rfl, hregister]
      cases r.machines.register c.machine with
      | ok machines =>
          simp only [Except.map, redact, Output.redact, Output.report, List.map_append,
            List.map_singleton]
      | error e =>
          exact record_redact
            { r with
              output := (r.output.report (c.errors.map fun e => .ofError e d.location)).report
                (c.machine.functions.filterMap Func.warning?) } d e

theorem step_redact (r : DeclRun) (p : Pending) :
    r.redact.step p.redact = (r.step p).map redact := by
  unfold step
  rw [attempt_redact, p.decl_redact]
  obtain ⟨result, stage⟩ := r.attempt p
  have hdepth : stage.redact.site.table.depth = stage.site.table.depth := stage.site.table.depth_redact
  simp only [hdepth]
  split_ifs
  · rfl
  · cases result with
    | error e => exact record_redact { r with stage } p.decl e
    | ok c => exact add_redact { r with stage } p.decl c

theorem steps_redact (r : DeclRun) (ps : List Pending) :
    (ps.map Pending.redact).foldlM step r.redact = (ps.foldlM step r).map redact := by
  induction ps generalizing r with
  | nil => rfl
  | cons p ps ih =>
      rw [List.map_cons, List.foldlM_cons, List.foldlM_cons, step_redact]
      cases r.step p with
      | error e => rfl
      | ok r' => exact ih r'

end DeclRun

def Session.redact (s : Session) : Session where
  table := s.table.redact
  machines := s.machines.redact

namespace Session

/-- Redacted declarations compile into what the declarations compile into, redacted, with the same
diagnostics. -/
theorem compile_redact (s : Session) (ds : List Decl) :
    s.redact.compile (ds.map Decl.redact) = (s.compile ds).map fun r => (r.1.redact, r.2.redact) := by
  unfold compile
  rw [show s.redact.table = s.table.redact from rfl, Decl.predeclareAll_redact]
  obtain ⟨table, pending⟩ := Decl.predeclareAll s.table none ds
  have hsteps := DeclRun.steps_redact (s.begin table) pending
  simp only
  rw [show s.redact.begin table.redact = (s.begin table).redact from rfl, hsteps]
  cases pending.foldlM DeclRun.step (s.begin table) <;> rfl

/-- Sessions and lists of declarations that differ in the texts of descriptions alone have outputs that
do, and the sessions do so afterwards. -/
theorem redact_eq_of_redact_eq {s t s' t' : Session} {ds es : List Decl} {out out' : Output}
    (hs : s.redact = t.redact) (hds : ds.map Decl.redact = es.map Decl.redact)
    (hc : s.compile ds = .ok (s', out)) (hc' : t.compile es = .ok (t', out')) :
    s'.redact = t'.redact ∧ out.redact = out'.redact := by
  have hleft := s.compile_redact ds
  have hright := t.compile_redact es
  rw [hs, hds, hright, hc, hc'] at hleft
  obtain ⟨hsession, hout⟩ := Prod.mk.inj (Except.ok.inj hleft)
  exact ⟨hsession.symm, hout.symm⟩

end Session

end Coherence
