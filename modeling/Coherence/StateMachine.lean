import Coherence.CompileError
import Coherence.Roster
/-!
# State machines

A `StateMachine` is a coherence controller being compiled: functions declared inside it belong to it
and not to a frame. A `MachineRegistry` keeps the machines of a whole run.
-/

namespace Coherence

/-- A state machine with the types and functions compiled for it so far. -/
structure StateMachine where
  ident : String
  location : Location := {}
  attributes : Attributes := {}
  roster : Roster Func Func.ident := {}
  /-- The types declared inside the machine, in source order. -/
  types : List TypeDef := []
deriving DecidableEq, Inhabited

namespace StateMachine

/-- The functions of the machine, in source order. -/
def functions (m : StateMachine) : List Func := m.roster.items

/-- The function of the machine with this name. -/
def findFunc? (m : StateMachine) (ident : String) : Option Func := m.roster.get? ident

def findFunc (m : StateMachine) (ident : String) : Except CompileError (Option Func) :=
  (m.roster.find ident).mapError fun i => .breach (.position i)

/-- Makes a function belong to the machine. -/
def addFunc (m : StateMachine) (f : Func) : Except CompileError StateMachine :=
  match m.roster.add? f with
  | some roster => .ok { m with roster }
  | none => .error (.duplicate .func f.ident f.location)

theorem addFunc_eq_ok {m m' : StateMachine} {f : Func} : m.addFunc f = .ok m' ↔
    ∃ roster, m.roster.add? f = some roster ∧ m' = { m with roster } := by
  unfold addFunc
  cases m.roster.add? f <;> simp [eq_comm]

theorem addFunc_eq_error {m : StateMachine} {f : Func} {e : CompileError} : m.addFunc f = .error e ↔
    m.roster.contains f.ident = true ∧ e = .duplicate .func f.ident f.location := by
  unfold addFunc Roster.add?
  cases m.roster.contains f.ident <;> simp [eq_comm]

/-- Makes a type belong to the machine. -/
def addType (m : StateMachine) (d : TypeDef) : StateMachine := { m with types := m.types ++ [d] }

/-- The name of the controller class of a machine. -/
def controllerOf (ident : String) : String := ident ++ "_Controller"

def controller (m : StateMachine) : String := controllerOf m.ident

end StateMachine

/-- The machines of a run. -/
abbrev MachineRegistry := Roster StateMachine StateMachine.ident

namespace MachineRegistry

/-- Fails if a machine of this name is registered. -/
def checkUnique (r : MachineRegistry) (ident : String) (location : Location) :
    Except CompileError Unit :=
  if r.contains ident then .error (.duplicate .machine ident location) else .ok ()

def register (r : MachineRegistry) (m : StateMachine) : Except CompileError MachineRegistry :=
  match r.add? m with
  | some r => .ok r
  | none => .error (.duplicate .machine m.ident m.location)

theorem checkUnique_eq_error {r : MachineRegistry} {ident : String} {location : Location}
    {e : CompileError} : r.checkUnique ident location = .error e ↔
      r.contains ident = true ∧ e = .duplicate .machine ident location := by
  unfold checkUnique
  cases r.contains ident <;> simp [eq_comm]

theorem register_eq_ok {r r' : MachineRegistry} {m : StateMachine} :
    r.register m = .ok r' ↔ r.add? m = some r' := by
  unfold register
  cases r.add? m <;> simp

theorem register_eq_error {r : MachineRegistry} {m : StateMachine} {e : CompileError} :
    r.register m = .error e ↔
      r.contains m.ident = true ∧ e = .duplicate .machine m.ident m.location := by
  unfold register Roster.add?
  cases r.contains m.ident <;> simp [eq_comm]

end MachineRegistry

end Coherence
