import Coherence.Proofs.Rearrangement
/-!
# The order of an output does not show in its units

Units come sorted by name and headers by theirs. So outputs that are the same but for the order of
types, machines and diagnostics have the same units, as long as no two units have the same name
(`Output.Reorders.units`).
-/

namespace Coherence

open Emit

namespace StateMachine.Reorders

variable {m m' : StateMachine}

theorem controller (h : m.Reorders m') : m.controller = m'.controller := by
  rw [StateMachine.controller, StateMachine.controller, h.ident]

/-- A controller includes the same headers, whatever the order of the machine's types. -/
theorem includes (h : m.Reorders m') : m.includes = m'.includes := by
  refine NameSet.names_ofNames_congr fun n => ?_
  simp only [List.mem_append, List.mem_filterMap, h.functions, h.types.mem_iff]

theorem controllerUnit (h : m.Reorders m') : controllerUnit m = controllerUnit m' := by
  have hbody : controllerBody m = controllerBody m' := by
    funext out
    rw [controllerBody, controllerBody, h.includes, h.attributes, h.controller, h.functions]
  rw [Emit.controllerUnit, Emit.controllerUnit, hbody, h.controller]

/-- Of its machine, a function's unit shows the name of the controller. -/
theorem functionUnit (h : m.Reorders m') (f : Func) :
    functionUnit (some m) f = functionUnit (some m') f := by
  have hincludes : f.includes (some m) = f.includes (some m') := by
    simp only [Func.includes, Option.map_some, h.controller]
  unfold Emit.functionUnit
  rw [hincludes]

theorem perm_machineUnits (h : m.Reorders m') : (machineUnits m).Perm (machineUnits m') := by
  have hfunctions : m.functions.filterMap (Emit.functionUnit (some m)) =
      m'.functions.filterMap (Emit.functionUnit (some m')) := by
    rw [h.functions]
    exact congrArg (m'.functions.filterMap ·) (funext h.functionUnit)
  rw [machineUnits, machineUnits, h.controllerUnit, hfunctions]
  exact ((h.types.flatMap_right _).append_right _).cons _

end StateMachine.Reorders

namespace Output.Reorders

variable {o o' : Output}

theorem hasErrors (h : o.Reorders o') : o.hasErrors = o'.hasErrors := h.diagnostics.any_eq

theorem perm_unsortedUnits (h : o.Reorders o') : o.unsortedUnits.Perm o'.unsortedUnits := by
  rw [unsortedUnits, unsortedUnits, h.functions]
  exact ((h.types.flatMap_right _).append_left _).append
    (h.machines.perm_flatMap fun _ _ hm => hm.perm_machineUnits)

/-- Units of different names come out the same. -/
theorem units (h : o.Reorders o') (hnames : (o.unsortedUnits.map OutputUnit.name).Nodup) :
    o.units = o'.units :=
  sortByName_eq_of_perm h.perm_unsortedUnits hnames

end Output.Reorders

end Coherence
