import Coherence.Emit.Includes
import Coherence.Listing
import Coherence.Session
/-!
# Output units

`Output.units` writes what compiled: a unit for each function with a definition, a header for each
type and for each machine's controller, and a source for each enumeration. Nothing is written for
what is external. Units come sorted by name.
-/

namespace Coherence

/-- One generated file. -/
structure OutputUnit where
  name : String
  contents : String
deriving DecidableEq, Inhabited

namespace Emit

def comment (desc : Option String) : List String := desc.toList.map ("// " ++ ·)

/-- A header: its text stands between the lines that guard it. -/
def header (ident : String) (body : Listing → Listing) : OutputUnit :=
  let start := ({} : Listing).addLines
    ["#ifndef " ++ includeGuard ident, "#define " ++ includeGuard ident, ""]
  { name := headerName ident
    contents := ((body start).addLines ["", "#endif // " ++ includeGuard ident]).text }

/-- The unit with the definition of a function, if it has one. -/
def functionUnit (machine : Option StateMachine) (f : Func) : Option OutputUnit := do
  let name ← f.outputFile
  let definition ← f.definition
  let origin := if f.location = .unknown then [] else ["// Generated from " ++ f.location.text]
  let top := origin ++ (f.includes machine).map includeLine
  let out := ({} : Listing).addLines (if top = [] then [] else top ++ [""])
  return { name, contents := out.text ++ definition }

/-- The enumerators in the header of an enumeration: its values and a last one that counts them. -/
def enumerators (values : List String) : List String := values ++ ["NUM"]

/-- Names with a comma after each but the last. -/
def withCommas : List String → List String
  | [] => []
  | [n] => [n]
  | n :: m :: rest => (n ++ ",") :: withCommas (m :: rest)

/-- The text of an enumeration's header. -/
def enumerationBody (d : TypeDef) (values : List String) (out : Listing) : Listing :=
  let ident := d.symbol.cIdent
  let top := out.addLines (comment d.symbol.attributes.desc ++
    ["#include <string>", "", "enum class " ++ ident ++ " \x7b"])
  (top.indent.addLines (withCommas (enumerators values))).dedent.addLines
    ["\x7d;", "", "std::string " ++ ident ++ "_to_string(const " ++ ident ++ "& obj);"]

def fieldName (ident : String) : String := "m_" ++ ident

/-- The text of a structure's header. Types without fields are structures, too. -/
def structureBody (d : TypeDef) (out : Listing) : Listing :=
  let includes := d.includes.map includeLine
  let top := out.addLines (comment d.symbol.attributes.desc ++
    (if includes = [] then [] else includes ++ [""]) ++ ["struct " ++ d.symbol.cIdent, "\x7b"])
  let fields := d.members.map fun m => m.cType ++ " " ++ fieldName m.field.ident ++ ";"
  (top.indent.addLines fields).dedent.addLines ["\x7d;"]

def caseLabel (ident value : String) : String := ident ++ "::" ++ value

/-- The case that gives a value of an enumeration its name. -/
def caseLines (ident : String) (out : Listing) (value : String) : Listing :=
  ((out.line ("case " ++ caseLabel ident value ++ ":")).indent.line
    ("return \"" ++ value ++ "\";")).dedent

/-- The source of an enumeration: the function that names its values. -/
def enumerationSource (ident : String) (values : List String) : OutputUnit :=
  let top := (({} : Listing).addLines
    [includeLine (headerName ident), "", "std::string",
      ident ++ "_to_string(const " ++ ident ++ "& obj)", "\x7b"]).indent.line "switch (obj) \x7b"
  let cases := values.foldl (caseLines ident) top
  let fallback := ((cases.line "default:").indent.line "return \"<invalid>\";").dedent
  { name := sourceName ident, contents := ((fallback.line "\x7d").dedent.line "\x7d").text }

/-- The units of a type. -/
def typeUnits (d : TypeDef) : List OutputUnit :=
  if d.symbol.isExternal then []
  else match d.symbol.kind with
    | .enumeration values =>
      [enumerationSource d.symbol.cIdent values,
        header d.symbol.cIdent (enumerationBody d values)]
    | _ => [header d.symbol.cIdent (structureBody d)]

/-- The text of a controller's header. -/
def controllerBody (m : StateMachine) (out : Listing) : Listing :=
  let top := out.addLines (m.includes.map includeLine ++ [""] ++ comment m.attributes.desc ++
    ["class " ++ m.controller, "\x7b", "  public:"])
  (top.indent.addLines (m.functions.map Func.prototype)).dedent.addLines ["\x7d;"]

def controllerUnit (m : StateMachine) : OutputUnit := header m.controller (controllerBody m)

/-- The units of a machine: its controller's, and those of its members. -/
def machineUnits (m : StateMachine) : List OutputUnit :=
  controllerUnit m :: m.types.flatMap typeUnits ++ m.functions.filterMap (functionUnit (some m))

/-- Puts a unit in front of the first one that does not come before it by name. -/
def insertByName (u : OutputUnit) : List OutputUnit → List OutputUnit
  | [] => [u]
  | v :: rest => if v.name < u.name then v :: insertByName u rest else u :: v :: rest

/-- Sorts units by name; units of one name keep their order. -/
def sortByName (units : List OutputUnit) : List OutputUnit := units.foldr insertByName []

theorem perm_insertByName (u : OutputUnit) (units : List OutputUnit) :
    (insertByName u units).Perm (u :: units) := by
  induction units with
  | nil => exact .refl _
  | cons v rest ih =>
      unfold insertByName
      split
      · exact (ih.cons v).trans (.swap u v rest)
      · exact .refl _

/-- Sorting neither loses nor makes up a unit. -/
theorem perm_sortByName (units : List OutputUnit) : (sortByName units).Perm units := by
  induction units with
  | nil => exact .refl _
  | cons u rest ih => exact (perm_insertByName u _).trans (ih.cons u)

theorem pairwise_insertByName (u : OutputUnit) {units : List OutputUnit}
    (h : units.Pairwise fun a b => a.name ≤ b.name) :
    (insertByName u units).Pairwise fun a b => a.name ≤ b.name := by
  induction units with
  | nil => exact List.pairwise_singleton _ u
  | cons v rest ih =>
      obtain ⟨hv, hrest⟩ := List.pairwise_cons.mp h
      unfold insertByName
      split
      · rename_i hlt
        refine List.pairwise_cons.mpr ⟨fun w hw => ?_, ih hrest⟩
        rcases List.mem_cons.mp ((perm_insertByName u rest).mem_iff.mp hw) with rfl | hw
        · exact String.not_lt.mp (String.lt_asymm hlt)
        · exact hv w hw
      · rename_i hge
        have huv : u.name ≤ v.name := String.not_lt.mp hge
        refine List.pairwise_cons.mpr ⟨fun w hw => ?_, h⟩
        rcases List.mem_cons.mp hw with rfl | hw
        · exact huv
        · exact String.le_trans huv (hv w hw)

theorem pairwise_sortByName (units : List OutputUnit) :
    (sortByName units).Pairwise fun a b => a.name ≤ b.name := by
  induction units with
  | nil => exact .nil
  | cons u rest ih => exact pairwise_insertByName u ih

/-- If no two units have the same name, the order is strict. -/
theorem pairwise_names_sortByName {units : List OutputUnit}
    (h : (units.map OutputUnit.name).Nodup) :
    ((sortByName units).map OutputUnit.name).Pairwise (· < ·) := by
  have hne := ((perm_sortByName units).map OutputUnit.name).nodup_iff.mpr h
  rw [List.Nodup, List.pairwise_map] at hne
  rw [List.pairwise_map]
  refine (hne.and (pairwise_sortByName units)).imp ?_
  rintro a b ⟨hne, hle⟩
  by_cases hlt : a.name < b.name
  · exact hlt
  · exact absurd (String.le_antisymm hle (String.not_lt.mp hlt)) hne

/-- If no two units have the same name, there is one way to sort them. -/
theorem sortByName_eq_of_perm {units units' : List OutputUnit} (hp : units.Perm units')
    (h : (units.map OutputUnit.name).Nodup) : sortByName units = sortByName units' := by
  have hsorted := pairwise_names_sortByName h
  have hsorted' := pairwise_names_sortByName ((hp.map OutputUnit.name).nodup_iff.mp h)
  rw [List.pairwise_map] at hsorted hsorted'
  refine List.Perm.eq_of_pairwise (fun u v _ _ huv hvu => ?_) hsorted hsorted'
    ((perm_sortByName units).trans (hp.trans (perm_sortByName units').symm))
  exact absurd hvu (String.lt_asymm huv)

end Emit

/-- The units of an output before they are sorted. -/
def Output.unsortedUnits (o : Output) : List OutputUnit :=
  o.functions.filterMap (Emit.functionUnit none) ++ o.types.flatMap Emit.typeUnits ++
    o.machines.flatMap Emit.machineUnits

/-- The units of an output, sorted by name. -/
def Output.units (o : Output) : List OutputUnit := Emit.sortByName o.unsortedUnits

end Coherence
