import Coherence.Proofs.UnitNames
import Mathlib.Data.List.Forall2
/-!
# Accounts

What a list of declarations compiles into is made up of one part for each declaration, in source order
(`Session.compile_accounts`). The part of a function or a type is its entry in the output or one error in
its name (`Decl.Part`), and nothing else but the warning about a body that is checked for nothing. The
part of a machine is one error, or its entry with one part for each member (`Decl.Account`).
-/

namespace Coherence

/-! ### Parts of an output -/

/-- An external function with a body: the body is checked and not emitted. -/
def FuncDecl.isUnused (d : FuncDecl) : Bool := d.attributes.external && d.body?.isSome

namespace Output

/-- The parts of an output, put together. -/
def join (parts : List Output) : Output := parts.foldr append {}

def errors (o : Output) : List Diagnostic := o.diagnostics.filter fun d => d.severity = .error

def warnings (o : Output) : List Diagnostic := o.diagnostics.filter fun d => d.severity = .warning

theorem errors_append (o o' : Output) : (o.append o').errors = o.errors ++ o'.errors :=
  List.filter_append ..

theorem warnings_append (o o' : Output) : (o.append o').warnings = o.warnings ++ o'.warnings :=
  List.filter_append ..

end Output

/-- What comes of a declaration that holds no others: the entry of a function, with a warning if its body
is checked for nothing, or the entry of a type, or one error in the declaration's name. Errors without a
place of their own are placed at `place`. -/
inductive Decl.Part (owner : Option String) (place : Location) : Decl → Output → Prop
  | func {d : FuncDecl} {f : Func} (ident : f.ident = d.ident) (location : f.location = d.location)
      (machine : f.machine = owner) :
      Part owner place (.func d)
        { functions := [f], diagnostics := if d.isUnused then [.unusedBody f] else [] }
  | type {d : TypeDecl} {τ : TypeDef} {home : FrameId} (symbol : τ.symbol = { d.symbol owner with home }) :
      Part owner place (.type d) { types := [τ] }
  | failed (d : Decl) (e : CompileError) :
      Part owner place d { diagnostics := [.ofError ⟨d.ident, e⟩ place] }

/-- What comes of a declaration at top level. A machine that compiles has an entry with the functions and
types of its members; the errors of the other members come before the warnings. -/
inductive Decl.Account : Decl → Output → Prop
  | plain {d : Decl} {o : Output} (part : d.Part none d.location o) : Account d o
  | machine {d : MachineDecl Decl} {m : StateMachine} {parts : List Output} (ident : m.ident = d.ident)
      (location : m.location = d.location) (attributes : m.attributes = .ofPairs d.pairs)
      (members : List.Forall₂ (Part (some d.ident) d.location) d.members parts)
      (functions : m.functions = (Output.join parts).functions)
      (types : m.types = (Output.join parts).types) :
      Account (.machine d)
        { machines := [m], diagnostics := (Output.join parts).errors ++ (Output.join parts).warnings }

/-! ### Turns -/

/-- A function is warned about exactly if its declaration is external and has a body. -/
theorem FuncDecl.warning?_toFunc {s : Site} {d : FuncDecl} {f : Func} (h : (d.toFunc s).1 = .ok f) :
    f.warning?.toList = if d.isUnused then [.unusedBody f] else [] := by
  obtain ⟨-, -, -, hattributes, hbody⟩ := toFunc_eq_ok h
  unfold Func.warning? isUnused
  cases hd : d.body? with
  | none =>
      rw [hbody.mpr hd]
      simp
  | some statements =>
      rw [hd] at hattributes hbody
      have hgenerated : f.body ≠ .external := fun heq => nomatch hbody.mp heq
      simp only [hattributes, Option.isNone_some, Bool.false_eq_true, if_false, hgenerated,
        Option.isSome_some, Bool.and_true, ne_eq, not_false_eq_true, decide_true]
      cases d.attributes.external <;> rfl

namespace Turn

/-- What a turn adds to the output, with the errors that have no place of their own at `place`. -/
def part (place : Location) (t : Turn) : Output :=
  match t.result with
  | .ok _ => t.output
  | .error e => { diagnostics := [.ofError ⟨t.decl.ident, e⟩ place] }

theorem part_location (t : Turn) : t.part t.decl.location = t.output := by
  obtain ⟨decl, table, result⟩ := t
  cases result <;> rfl

variable {owner : Option String} {t : Turn}

/-- A turn comes to one part, unless it compiles a machine. -/
theorem Answers.part (h : t.Answers owner) (place : Location)
    (hm : ∀ d c, t.decl = .machine d → t.result ≠ .ok c) : t.decl.Part owner place (t.part place) := by
  obtain ⟨decl, table, result⟩ := t
  cases result with
  | error e => exact .failed decl e
  | ok c =>
      have hanswer := h c rfl
      cases decl with
      | machine d => exact absurd rfl (hm d c rfl)
      | func d =>
          cases c with
          | type τ => exact hanswer.elim
          | machine c => exact hanswer.elim
          | func f =>
              obtain ⟨machine, rfl, hf⟩ := hanswer
              obtain ⟨hident, hlocation, howner, -⟩ := FuncDecl.toFunc_eq_ok hf
              have hpart : Decl.Part _ place _ _ := .func hident hlocation howner
              rw [← FuncDecl.warning?_toFunc hf] at hpart
              exact hpart
      | type d =>
          cases c with
          | func f => exact hanswer.elim
          | machine c => exact hanswer.elim
          | type τ =>
              obtain ⟨home, hsymbol⟩ := hanswer
              exact .type hsymbol

theorem parts_of_answers {x : String} {ts : List Turn} (h : ∀ t ∈ ts, t.Answers (some x))
    (place : Location) :
    List.Forall₂ (Decl.Part (some x) place) (ts.map decl) (ts.map (part place)) := by
  rw [List.forall₂_map_left_iff, List.forall₂_map_right_iff, List.forall₂_same]
  intro t ht
  refine (h t ht).part place fun d c hd hc => ?_
  exact not_compiles_machine (h t ht) hd ⟨c, hc⟩

theorem diagnostics_warning? (f : Func) :
    ({ diagnostics := f.warning?.toList } : Output).errors = [] ∧
      ({ diagnostics := f.warning?.toList } : Output).warnings = f.warning?.toList := by
  unfold Func.warning?
  split <;> exact ⟨rfl, rfl⟩

/-- What the part of a member comes to: its entry, and either the failure that is recorded or the warning
about its body. -/
theorem part_member {x : String} {t : Turn} (h : t.Answers (some x)) (place : Location) :
    (t.part place).functions = t.output.functions ∧ (t.part place).types = t.output.types ∧
      (t.part place).errors = t.failure?.toList.map (fun e => .ofError e place) ∧
      (t.part place).warnings = t.output.functions.filterMap Func.warning? := by
  have hmachine := fun d => not_compiles_machine (d := d) h
  obtain ⟨decl, table, result⟩ := t
  cases result with
  | error e => exact ⟨rfl, rfl, rfl, rfl⟩
  | ok c =>
      cases c with
      | type τ => exact ⟨rfl, rfl, rfl, rfl⟩
      | func f =>
          obtain ⟨herrors, hwarnings⟩ := diagnostics_warning? f
          refine ⟨rfl, rfl, herrors, hwarnings.trans ?_⟩
          show _ = [f].filterMap Func.warning?
          cases h : f.warning? <;> simp [h]
      | machine c =>
          have hanswer := h _ rfl
          cases decl with
          | machine d => exact absurd ⟨_, rfl⟩ (hmachine d rfl)
          | func d => exact hanswer.elim
          | type d => exact hanswer.elim

theorem join_parts {x : String} {ts : List Turn} (h : ∀ t ∈ ts, t.Answers (some x)) (place : Location) :
    (Output.join (ts.map (part place))).functions = (outputs ts).functions ∧
      (Output.join (ts.map (part place))).types = (outputs ts).types ∧
      (Output.join (ts.map (part place))).errors =
        (ts.filterMap failure?).map (fun e => .ofError e place) ∧
      (Output.join (ts.map (part place))).warnings =
        (outputs ts).functions.filterMap Func.warning? := by
  induction ts with
  | nil => exact ⟨rfl, rfl, rfl, rfl⟩
  | cons t ts ih =>
      obtain ⟨ht, hts⟩ := List.forall_mem_cons.mp h
      obtain ⟨hfunctions, htypes, herrors, hwarnings⟩ := ih hts
      obtain ⟨hfunctions', htypes', herrors', hwarnings'⟩ := part_member ht place
      have hjoin : Output.join ((t :: ts).map (part place)) =
          (t.part place).append (Output.join (ts.map (part place))) := rfl
      have houtputs : outputs (t :: ts) = t.output.append (outputs ts) := rfl
      have hfailures : (t :: ts).filterMap failure? =
          t.failure?.toList ++ ts.filterMap failure? := by
        rw [List.filterMap_cons]
        cases t.failure? <;> rfl
      rw [hjoin, houtputs, hfailures, Output.errors_append, Output.warnings_append, List.map_append,
        herrors, herrors', hwarnings, hwarnings']
      refine ⟨?_, ?_, rfl, ?_⟩
      · exact congrArg₂ _ hfunctions' hfunctions
      · exact congrArg₂ _ htypes' htypes
      · exact (List.filterMap_append ..).symm

theorem account_of_answers {t : Turn} (ht : t.table.Sound) (h : t.Answers none) :
    t.decl.Account t.output := by
  by_cases hmachine : ∃ d c, t.decl = .machine d ∧ t.result = .ok c
  · obtain ⟨d, c, hd, hc⟩ := hmachine
    have hanswer := h c hc
    rw [hd] at hanswer
    cases c with
    | func f => exact hanswer.elim
    | type τ => exact hanswer.elim
    | machine c =>
        obtain ⟨hgains, hfailures⟩ := d.gains_compile ht hanswer.2
        obtain ⟨hdecls, hanswers, -⟩ := d.turns_spec ht
        obtain ⟨hfunctions, htypes, herrors, hwarnings⟩ := join_parts hanswers d.location
        have hmembers := parts_of_answers hanswers d.location
        rw [hdecls] at hmembers
        have haccount := Decl.Account.machine hgains.ident hgains.location hgains.attributes hmembers
          (hgains.functions.trans hfunctions.symm) (hgains.types.trans htypes.symm)
        have houtput : t.output = {
            machines := [c.machine]
            diagnostics := (c.errors.map fun e => .ofError e t.decl.location) ++
              c.machine.functions.filterMap Func.warning? } := by
          unfold output
          rw [hc]
        rw [hd, houtput, hd, hfailures, hgains.functions]
        rw [herrors, hwarnings] at haccount
        exact haccount
  · rw [← t.part_location]
    refine .plain (h.part t.decl.location fun d c hd hc => hmachine ⟨d, c, hd, hc⟩)

end Turn

namespace Session

/-- The output of a list of declarations is made up of one part for each declaration, in source order,
whatever came of the others. -/
theorem compile_accounts {config : Config} {s : Session} (hs : Reached config s) (ds : List Decl) :
    ∃ s' parts, s.compile ds = .ok (s', Output.join parts) ∧ List.Forall₂ Decl.Account ds parts := by
  obtain ⟨s', hcompile, -⟩ := compile_eq hs.sound ds
  obtain ⟨hdecls, htables, hanswers, -⟩ := turns_spec hs.sound ds
  refine ⟨s', (s.turns ds).map Turn.output, hcompile, ?_⟩
  conv in ds => rw [← hdecls]
  rw [List.forall₂_map_left_iff, List.forall₂_map_right_iff, List.forall₂_same]
  exact fun t ht => Turn.account_of_answers (htables t ht) (hanswers t ht)

/-- A type twice, an external function with a body, and a machine of which two members fail: a machine, and
a function with a type that does not exist. -/
def mixed : List Decl := [
  .type { ident := "State", body := .enumeration ["I", "M"] },
  .func {
    returnType := { ident := "void" }, ident := "cycle"
    pairs := NameMap.empty.insert "external" "yes", statements := some [.ret none {}] },
  .type { ident := "State" },
  .machine { ident := "L1", members := [
    .func {
      returnType := { ident := "void" }, ident := "tick"
      pairs := NameMap.empty.insert "external" "yes", statements := some [.ret none {}] },
    .machine { ident := "Inner" },
    .type { ident := "Line", body := .record [{ type := { ident := "State" }, ident := "state" }] },
    .func { returnType := { ident := "Missing" }, ident := "next" }] }]

/-- What comes of each of them. -/
theorem compile_accounts_mixed : ∃ s₀ s parts, Session.start .prelude = .ok s₀ ∧
    s₀.compile mixed = .ok (s, Output.join parts) ∧ List.Forall₂ Decl.Account mixed parts ∧
    (Output.join parts).functions.map Func.ident = ["cycle"] ∧
    (Output.join parts).types.map (fun τ => τ.symbol.ident) = ["State"] ∧
    (Output.join parts).machines.map (fun m => m.functions.map Func.ident ++
      m.types.map fun τ => τ.symbol.ident) = [["tick", "Line"]] ∧
    (Output.join parts).diagnostics.map Diagnostic.code =
      ["W0001", "E0105", "E0301", "E0102", "W0001"] := by
  have hrun : ((Session.start .prelude).toOption.bind fun s =>
      (s.compile mixed).toOption.map fun r => decide (r.2.functions.map Func.ident = ["cycle"] ∧
        r.2.types.map (fun τ => τ.symbol.ident) = ["State"] ∧
        r.2.machines.map (fun m => m.functions.map Func.ident ++
          m.types.map fun τ => τ.symbol.ident) = [["tick", "Line"]] ∧
        r.2.diagnostics.map Diagnostic.code = ["W0001", "E0105", "E0301", "E0102", "W0001"])) =
        some true := by decide +kernel
  obtain ⟨s₀, hs₀, hrun⟩ := Option.bind_eq_some_iff.mp hrun
  obtain ⟨⟨s, out⟩, hc, hrun⟩ := Option.map_eq_some_iff.mp hrun
  rw [toOption_eq_some] at hs₀ hc
  obtain ⟨s', parts, hcompile, haccounts⟩ := compile_accounts (.start hs₀) mixed
  rw [hcompile] at hc
  cases hc
  exact ⟨s₀, s, parts, hs₀, hcompile, haccounts, of_decide_eq_true hrun⟩

end Session

end Coherence
