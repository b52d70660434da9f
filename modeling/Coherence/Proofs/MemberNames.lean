import Coherence.Proofs.Guards
import Coherence.Proofs.TypeAcceptance
/-!
# Members of generated types

A type that is accepted has fields, or values, of different names. The declaration that is written of a
structure has one member for each field, so its members have different names as well. That of an
enumeration has one more than there are values, which counts them: its members have different names exactly
if no value is called like it (`TypeDecl.members_distinct`).
-/

namespace Coherence

/-! ### Accepted members -/

/-- The values of an enumeration; other types have none. -/
def TypeSymbol.values (τ : TypeSymbol) : List String :=
  match τ.kind with
  | .enumeration values => values
  | _ => []

namespace TypeDecl

variable {type : TypeSymbol} {t : SymbolTable}

/-- Fields that were found have names of their own, whatever was on record before. -/
theorem fresh_of_resolveFields {position : Nat} {fields : List Field}
    (h : (resolveFields type t position fields).1 = .ok ()) : t.Fresh (fields.map Field.ident) := by
  induction fields generalizing t position with
  | nil => exact .nil t
  | cons f fs ih =>
      unfold resolveFields at h
      split at h
      · cases h
      · rename_i σ _
        split at h
        · cases h
        · rename_i u hu
          have htop : u.top = t.top := by
            unfold SymbolTable.resolveField at hu
            split at hu <;> cases hu
            rfl
          split at h
          · cases h
          · rename_i hd
            obtain ⟨hfree, rfl⟩ := SymbolTable.declare_eq_ok.mp hd
            have hfresh := (SymbolTable.fresh_cons ⟨f.ident, f.location, σ⟩ _).mpr ⟨hfree, ih h⟩
            unfold SymbolTable.Fresh at hfresh ⊢
            rwa [htop] at hfresh

theorem nodup_of_checkMembers (h : (checkMembers type t.push).1 = .ok ()) :
    (type.fields.map Field.ident).Nodup ∧ type.values.Nodup := by
  unfold checkMembers at h
  unfold TypeSymbol.fields TypeSymbol.values
  cases hkind : type.kind with
  | record fields =>
      rw [hkind] at h
      exact ⟨(SymbolTable.fresh_push none _).mp (fresh_of_resolveFields h), .nil⟩
  | enumeration values =>
      rw [hkind] at h
      exact ⟨.nil, (SymbolTable.fresh_push none _).mp (bindValues_succeeds.mp h)⟩
  | primitive => exact ⟨.nil, .nil⟩
  | void => exact ⟨.nil, .nil⟩

/-- What compiles was checked, with whatever symbol it was registered under. -/
theorem nodup_of_compile {s : Site} {d : TypeDecl} {state : Registration} {τ : TypeDef}
    (h : (d.compile s state).1 = .ok τ) :
    (τ.symbol.fields.map Field.ident).Nodup ∧ τ.symbol.values.Nodup := by
  unfold compile at h
  split at h
  · rename_i type _
    unfold compileDeclared at h
    split at h
    · cases h
    · rename_i inner hcheck
      cases h
      exact nodup_of_checkMembers (congrArg Prod.fst hcheck)
  · cases h
  · cases h

end TypeDecl

/-! ### Written members -/

theorem TypeDef.map_field_align (fields : List Field) (types : List FieldType) :
    (align fields types).map Member.field = fields := by
  induction fields generalizing types with
  | nil => rfl
  | cons f fields ih => cases types <;> simp [align, ih]

namespace Emit

open Listing

/-- The name of the last enumerator, which counts the others. -/
def countName : String := "NUM"

/-- The names of the members in the declaration that is written of a type. -/
def writtenNames (d : TypeDef) : List String :=
  match d.symbol.kind with
  | .enumeration values => enumerators values
  | _ => d.members.map fun m => fieldName m.field.ident

/-- The labels of the cases in the source that is written of an enumeration. -/
def caseLabels (d : TypeDef) : List String := d.symbol.values.map (caseLabel d.symbol.cIdent)

/-- The lines of the declaration that is written of a type. -/
def declarationLines (d : TypeDef) : List String :=
  match d.symbol.kind with
  | .enumeration _ =>
    ["enum class " ++ d.symbol.cIdent ++ " \x7b"] ++ (withCommas (writtenNames d)).map (indented 1) ++
      ["\x7d;"]
  | _ =>
    ["struct " ++ d.symbol.cIdent, "\x7b"] ++
      (List.zipWith (fun m name => m.cType ++ " " ++ name ++ ";") d.members (writtenNames d)).map
        (indented 1) ++ ["\x7d;"]

/-- The lines of the cases that are written of an enumeration. -/
def switchLines (d : TypeDef) : List String :=
  [indented 1 "switch (obj) \x7b"] ++ (List.zipWith (fun label value =>
      [indented 1 ("case " ++ label ++ ":"), indented 2 ("return \"" ++ value ++ "\";")])
    (caseLabels d) d.symbol.values).flatten ++ [indented 1 "default:"]

theorem contents_header {d : TypeDef} (h : d.symbol.isExternal = false) :
    ∃ u ∈ typeUnits d, u.name = headerName d.symbol.cIdent ∧ ∃ top bottom,
      u.contents = (({} : Listing).append (top ++ declarationLines d ++ bottom)).text := by
  have hunit : ∀ (top bottom : List String) {body : Listing → Listing} {lines : List String},
      header d.symbol.cIdent body ∈ typeUnits d →
      (∀ l : Listing, l.depth = 0 → body l = l.append lines) →
      lines = top ++ declarationLines d ++ bottom →
      ∃ u ∈ typeUnits d, u.name = headerName d.symbol.cIdent ∧ ∃ top bottom,
        u.contents = (({} : Listing).append (top ++ declarationLines d ++ bottom)).text := by
    rintro top bottom body lines hmem hbody rfl
    refine ⟨_, hmem, rfl, ["#ifndef " ++ includeGuard d.symbol.cIdent,
      "#define " ++ includeGuard d.symbol.cIdent, ""] ++ top,
      bottom ++ ["", "#endif // " ++ includeGuard d.symbol.cIdent], ?_⟩
    rw [header_eq, headerLines_eq hbody]
    simp only [List.append_assoc]
  cases hkind : d.symbol.kind with
  | enumeration values =>
      refine hunit (comment d.symbol.attributes.desc ++ ["#include <string>", ""])
        ["", "std::string " ++ d.symbol.cIdent ++ "_to_string(const " ++ d.symbol.cIdent ++ "& obj);"]
        (by simp [typeUnits, h, hkind]) (fun l hl => enumerationBody_eq d values hl) ?_
      simp [declarationLines, writtenNames, hkind]
  | record _ | primitive | void =>
      refine hunit (comment d.symbol.attributes.desc ++
          if d.includes.map includeLine = [] then [] else d.includes.map includeLine ++ [""])
        [] (by simp [typeUnits, h, hkind]) (fun l hl => structureBody_eq d hl) ?_
      simp [declarationLines, writtenNames, hkind, List.zipWith_map_right, List.zipWith_self]

theorem contents_source {d : TypeDef} (henum : d.symbol.isEnumeration = true)
    (h : d.symbol.isExternal = false) :
    ∃ u ∈ typeUnits d, u.name = sourceName d.symbol.cIdent ∧ ∃ top bottom,
      u.contents = (({} : Listing).append (top ++ switchLines d ++ bottom)).text := by
  unfold TypeSymbol.isEnumeration at henum
  split at henum
  · rename_i values hkind
    refine ⟨enumerationSource d.symbol.cIdent values, by simp [typeUnits, h, hkind], rfl,
      [includeLine (headerName d.symbol.cIdent), "", "std::string",
        d.symbol.cIdent ++ "_to_string(const " ++ d.symbol.cIdent ++ "& obj)", "\x7b"],
      [indented 2 "return \"<invalid>\";", indented 1 "\x7d", "\x7d"], ?_⟩
    have hvalues : d.symbol.values = values := by rw [TypeSymbol.values, hkind]
    rw [enumerationSource_eq, sourceLines_eq, switchLines, caseLabels, hvalues]
    simp [List.zipWith_map_left, List.zipWith_self, List.flatMap_def]
  · cases henum

theorem nodup_caseLabels {d : TypeDef} (h : d.symbol.values.Nodup) : (caseLabels d).Nodup := by
  refine h.map fun v v' heq => ?_
  simpa [caseLabel] using heq

/-- The members of a structure differ as its fields do, those of an enumeration if no value has the name of
the last one. -/
theorem nodup_writtenNames {d : TypeDef} (hfields : (d.symbol.fields.map Field.ident).Nodup)
    (hvalues : d.symbol.values.Nodup) :
    (writtenNames d).Nodup ↔ countName ∉ d.symbol.values := by
  have hmembers : (d.members.map fun m => fieldName m.field.ident).Nodup := by
    have heq : (d.members.map fun m => fieldName m.field.ident) =
        (d.symbol.fields.map Field.ident).map fieldName := by
      rw [← TypeDef.map_field_align d.symbol.fields d.fieldTypes, List.map_map, List.map_map]
      rfl
    rw [heq]
    refine hfields.map fun v v' hv => ?_
    simpa [fieldName] using hv
  unfold writtenNames TypeSymbol.values
  unfold TypeSymbol.values at hvalues
  cases hkind : d.symbol.kind with
  | enumeration values =>
      rw [hkind] at hvalues
      simp only [enumerators, countName, List.nodup_append, hvalues, true_and, List.mem_singleton,
        List.nodup_singleton]
      exact ⟨fun h hmem => h _ hmem _ rfl rfl, fun h v hv w hw heq => h (by rw [← hw, ← heq]; exact hv)⟩
  | record _ | primitive | void => simpa using hmembers

end Emit

open Emit

/-- Of a type that is accepted, wherever it stands and however it was registered, the cases written for its
values have different labels. The members of its declaration have different names, unless it is an
enumeration with a value of the name that the last enumerator gets. These are the members and cases in the
units that are written of it, unless it is supplied from outside. -/
theorem TypeDecl.members_distinct {s : Site} {d : TypeDecl} {state : Registration} {τ : TypeDef}
    (h : (d.compile s state).1 = .ok τ) :
    (caseLabels τ).Nodup ∧ ((writtenNames τ).Nodup ↔ countName ∉ τ.symbol.values) ∧
    (τ.symbol.isExternal = false →
      (∃ u ∈ typeUnits τ, u.name = headerName τ.symbol.cIdent ∧ ∃ top bottom,
        u.contents = (({} : Listing).append (top ++ declarationLines τ ++ bottom)).text) ∧
      (τ.symbol.isEnumeration = true → ∃ u ∈ typeUnits τ, u.name = sourceName τ.symbol.cIdent ∧
        ∃ top bottom,
          u.contents = (({} : Listing).append (top ++ switchLines τ ++ bottom)).text)) := by
  obtain ⟨hfields, hvalues⟩ := nodup_of_compile h
  exact ⟨nodup_caseLabels hvalues, nodup_writtenNames hfields hvalues, fun hexternal =>
    ⟨contents_header hexternal, fun henum => contents_source henum hexternal⟩⟩

/-- States with two values. -/
def twoStates : TypeDecl := { ident := "State", body := .enumeration ["I", "M"] }

/-- The members of this enumeration differ. -/
theorem TypeDecl.members_distinct_twoStates : ∃ τ,
    (twoStates.compile { table := .initial } .pending).1 = .ok τ ∧ writtenNames τ = ["I", "M", "NUM"] ∧
      (writtenNames τ).Nodup ∧ caseLabels τ = ["State::I", "State::M"] ∧ (caseLabels τ).Nodup := by
  have hrun : ((twoStates.compile { table := .initial } .pending).1.toOption.map fun τ =>
      decide (writtenNames τ = ["I", "M", "NUM"] ∧ caseLabels τ = ["State::I", "State::M"] ∧
        countName ∉ τ.symbol.values)) = some true := by decide +kernel
  obtain ⟨τ, hτ, hrun⟩ := Option.map_eq_some_iff.mp hrun
  obtain ⟨hnames, hlabels, hcount⟩ := of_decide_eq_true hrun
  rw [toOption_eq_some] at hτ
  obtain ⟨hcases, hmembers, -⟩ := members_distinct hτ
  exact ⟨τ, hτ, hnames, hmembers.mpr hcount, hlabels, hcases⟩

/-- States with a value of the name that the last enumerator gets. -/
def countedStates : TypeDecl := { ident := "State", body := .enumeration ["I", "NUM"] }

/-- This enumeration compiles without errors, and its declaration has two members of one name. -/
theorem TypeDecl.members_repeat : ∃ s₀ s out τ, Session.start .prelude = .ok s₀ ∧
    (countedStates.compile { table := s₀.table } .pending).1 = .ok τ ∧
    s₀.compile [.type countedStates] = .ok (s, out) ∧ out.hasErrors = false ∧ out.types = [τ] ∧
    writtenNames τ = ["I", "NUM", "NUM"] ∧
    ⟨"State.hh", "#ifndef __STATE_HH__\n#define __STATE_HH__\n\n#include <string>\n\n" ++
      "enum class State \x7b\n    I,\n    NUM,\n    NUM\n\x7d;\n\n" ++
      "std::string State_to_string(const State& obj);\n\n#endif // __STATE_HH__\n"⟩ ∈ out.units := by
  have hrun : ((Session.start .prelude).toOption.bind fun s =>
      (countedStates.compile { table := s.table } .pending).1.toOption.bind fun τ =>
      (s.compile [.type countedStates]).toOption.map fun r => decide (r.2.hasErrors = false ∧
        r.2.types = [τ] ∧ writtenNames τ = ["I", "NUM", "NUM"] ∧
        ⟨"State.hh", "#ifndef __STATE_HH__\n#define __STATE_HH__\n\n#include <string>\n\n" ++
          "enum class State \x7b\n    I,\n    NUM,\n    NUM\n\x7d;\n\n" ++
          "std::string State_to_string(const State& obj);\n\n#endif // __STATE_HH__\n"⟩ ∈
            r.2.units)) = some true := by decide +kernel
  obtain ⟨s₀, hs₀, hrun⟩ := Option.bind_eq_some_iff.mp hrun
  obtain ⟨τ, hτ, hrun⟩ := Option.bind_eq_some_iff.mp hrun
  obtain ⟨⟨s, out⟩, hc, hrun⟩ := Option.map_eq_some_iff.mp hrun
  obtain ⟨herrors, htypes, hnames, hunit⟩ := of_decide_eq_true hrun
  rw [toOption_eq_some] at hs₀ hτ hc
  exact ⟨s₀, s, out, τ, hs₀, hτ, hc, herrors, htypes, hnames, hunit⟩

end Coherence
