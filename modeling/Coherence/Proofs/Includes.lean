import Coherence.Proofs.Descriptions
import Coherence.Proofs.IncludeLines
import Coherence.Proofs.Lexical
import Mathlib.Data.List.Pairwise
import Mathlib.Data.List.Perm.Basic
/-!
# What units include

Which headers a unit includes can be told from the types that it mentions: a function's unit includes
those of its signature, a structure's header those of its fields, a controller's header those of the
machine's types and of its functions. External types and the type without values have no header. In an
output without errors there is a unit for each header that is included (`Session.compile_includes`): what a
declaration names has compiled, too, at top level or in the same machine.

This takes names and spellings that are inert, and descriptions and file names of one line. All of these are
written as they are given, and what stands after a line break in a description may include anything
(`Session.description_includes`).
-/

namespace Coherence

open Emit

/-- The header declares the type. An external type and the type without values have none. -/
structure TypeSymbol.DeclaredIn (τ : TypeSymbol) (header : String) : Prop where
  internal : τ.isExternal = false
  nonVoid : τ.isVoid = false
  header : header = headerName τ.cIdent

theorem TypeSymbol.header_eq_some {τ : TypeSymbol} {header : String} :
    τ.header = some header ↔ τ.DeclaredIn header := by
  unfold TypeSymbol.header
  constructor
  · intro h
    split at h
    · cases h
    · rename_i hne
      rw [Bool.not_eq_true, Bool.or_eq_false_iff] at hne
      cases h
      exact ⟨hne.1, hne.2, rfl⟩
  · rintro ⟨hinternal, hvoid, rfl⟩
    rw [hinternal, hvoid]
    rfl

/-! ### Where functions and types stand -/

namespace Output

/-- The places of functions and types: top level and the machines. -/
def places (o : Output) : List (Option StateMachine) := none :: o.machines.map some

def functionsAt (o : Output) : Option StateMachine → List Func
  | none => o.functions
  | some m => m.functions

def typesAt (o : Output) : Option StateMachine → List TypeDef
  | none => o.types
  | some m => m.types

/-- The types of all places. -/
def allTypes (o : Output) : List TypeDef := o.places.flatMap o.typesAt

theorem perm_units (o : Output) : o.units.Perm (o.allTypes.flatMap typeUnits ++
    (o.machines.map controllerUnit ++
      o.places.flatMap fun m => (o.functionsAt m).filterMap (functionUnit m))) := by
  have htypes : o.allTypes.flatMap typeUnits =
      o.types.flatMap typeUnits ++ o.machines.flatMap fun m => m.types.flatMap typeUnits := by
    simp only [allTypes, places, List.flatMap_cons, List.flatMap_append, List.flatMap_map,
      List.flatMap_assoc, typesAt]
  have hfunctions : (o.places.flatMap fun m => (o.functionsAt m).filterMap (functionUnit m)) =
      o.functions.filterMap (functionUnit none) ++
        o.machines.flatMap fun m => m.functions.filterMap (functionUnit (some m)) := by
    simp only [places, List.flatMap_cons, List.flatMap_map, functionsAt]
  have hmachines : (o.machines.flatMap machineUnits).Perm (o.machines.map controllerUnit ++
      ((o.machines.flatMap fun m => m.types.flatMap typeUnits) ++
        o.machines.flatMap fun m => m.functions.filterMap (functionUnit (some m)))) :=
    .trans (List.map_append_flatMap_perm _ _ _).symm (.append_left _ (List.flatMap_append_perm _ _ _).symm)
  rw [htypes, hfunctions]
  refine (perm_sortByName _).trans ((List.Perm.append_left _ hmachines).trans ?_)
  refine List.perm_iff_count.mpr fun u => ?_
  simp only [List.count_append]
  omega

end Output

/-! ### The units of types -/

namespace TypeDef

variable {τ : TypeDef}

theorem structure_mem_typeUnits (hinternal : τ.symbol.isExternal = false)
    (hkind : τ.symbol.isEnumeration = false) :
    header τ.symbol.cIdent (structureBody τ) ∈ typeUnits τ := by
  unfold typeUnits
  unfold TypeSymbol.isEnumeration at hkind
  rw [hinternal]
  split at hkind
  · cases hkind
  · rename_i hne
    cases h : τ.symbol.kind with
    | enumeration values => exact absurd h (hne values)
    | void => exact List.mem_singleton_self _
    | primitive => exact List.mem_singleton_self _
    | record fields => exact List.mem_singleton_self _

theorem enumeration_mem_typeUnits {values : List String} (hinternal : τ.symbol.isExternal = false)
    (hkind : τ.symbol.kind = .enumeration values) :
    header τ.symbol.cIdent (enumerationBody τ values) ∈ typeUnits τ ∧
      enumerationSource τ.symbol.cIdent values ∈ typeUnits τ := by
  unfold typeUnits
  rw [hinternal, hkind]
  simp

theorem headerName_mem_typeUnits (hinternal : τ.symbol.isExternal = false) :
    headerName τ.symbol.cIdent ∈ (typeUnits τ).map OutputUnit.name := by
  cases hkind : τ.symbol.isEnumeration with
  | false => exact List.mem_map_of_mem (structure_mem_typeUnits hinternal hkind)
  | true =>
      unfold TypeSymbol.isEnumeration at hkind
      split at hkind
      · rename_i values hvalues
        exact List.mem_map_of_mem (enumeration_mem_typeUnits hinternal hvalues).1
      · cases hkind

end TypeDef

/-! ### Names of headers -/

section names

variable {o : Output} (hnodup : (o.units.map OutputUnit.name).Nodup)

theorem Output.mem_names_of_type {τ : TypeDef} (hτ : τ ∈ o.allTypes)
    (hinternal : τ.symbol.isExternal = false) :
    headerName τ.symbol.cIdent ∈ o.units.map OutputUnit.name := by
  rw [(o.perm_units.map OutputUnit.name).mem_iff, List.map_append, List.map_flatMap]
  exact List.mem_append_left _
    (List.mem_flatMap.mpr ⟨τ, hτ, TypeDef.headerName_mem_typeUnits hinternal⟩)

theorem Output.mem_names_of_machine {m : StateMachine} (hm : m ∈ o.machines) :
    headerName m.controller ∈ o.units.map OutputUnit.name :=
  List.mem_map_of_mem (o.perm_units.mem_iff.mpr
    (List.mem_append_right _ (List.mem_append_left _ (List.mem_map_of_mem hm))))

include hnodup

theorem Output.type_of_headerName {τ σ : TypeDef} (hτ : τ ∈ o.allTypes) (hσ : σ ∈ o.allTypes)
    (hτi : τ.symbol.isExternal = false) (hσi : σ.symbol.isExternal = false)
    (h : headerName τ.symbol.cIdent = headerName σ.symbol.cIdent) : τ = σ := by
  rw [(o.perm_units.map OutputUnit.name).nodup_iff, List.map_append, List.map_flatMap] at hnodup
  obtain ⟨-, hdisjoint⟩ := List.nodup_flatMap.mp (List.nodup_append.mp hnodup).1
  have hsymm : Std.Symm (Function.onFun List.Disjoint fun τ => (typeUnits τ).map OutputUnit.name) :=
    ⟨fun _ _ hd _ hσ hτ => hd hτ hσ⟩
  -- Else the units of both types, one after the other, would have this name twice.
  by_contra hne
  have hmem := TypeDef.headerName_mem_typeUnits hσi
  rw [← h] at hmem
  exact hdisjoint.forall hτ hσ hne (TypeDef.headerName_mem_typeUnits hτi) hmem

theorem Output.headerName_ne_controller {τ : TypeDef} {m : StateMachine} (hτ : τ ∈ o.allTypes)
    (hτi : τ.symbol.isExternal = false) (hm : m ∈ o.machines) :
    headerName τ.symbol.cIdent ≠ headerName m.controller := by
  rw [(o.perm_units.map OutputUnit.name).nodup_iff, List.map_append, List.map_flatMap,
    List.map_append] at hnodup
  refine (List.nodup_append.mp hnodup).2.2 _
    (List.mem_flatMap.mpr ⟨τ, hτ, TypeDef.headerName_mem_typeUnits hτi⟩) _ ?_
  exact List.mem_append_left _ (List.mem_map_of_mem (List.mem_map_of_mem hm))

end names

/-! ### What compiled mentions types that names mean -/

section linked

variable {meaning : String → Option TypeSymbol} {owner : Option String}

/-- What a turn adds to the output mentions types that names mean in the table found there. -/
theorem Turn.linked_output {t : Turn} (hresolved : t.Resolved owner) (hanswers : t.Answers owner)
    (hmeaning : t.table.findType? = meaning) :
    (∀ f ∈ t.output.functions, f.Linked meaning) ∧ ∀ τ ∈ t.output.types, τ.Linked meaning := by
  subst hmeaning
  refine hanswers.forall_output (fun d f hd hr _ _ _ => ?_) fun d τ hd hr _ hsymbol => ?_
  · have hf := hresolved _ hr
    rw [hd] at hf
    exact hf.linked
  · have hτ := hresolved _ hr
    rw [hd] at hτ
    exact hτ.linked hsymbol

theorem Turn.inert_output {t : Turn} (hresolved : t.Resolved owner) (hanswers : t.Answers owner)
    (hmeaning : t.table.findType? = meaning) (howner : ∀ x ∈ owner, Text.Inert x)
    (hspelled : ∀ name τ, meaning name = some τ → Text.Inert τ.cIdent) (hd : t.decl.Inert) :
    (∀ f ∈ t.output.functions, f.Inert) ∧ ∀ τ ∈ t.output.types, τ.Inert := by
  subst hmeaning
  refine hanswers.forall_output (fun d f hdecl _ m hm hf => ?_) fun d τ hdecl hr _ hsymbol => ?_
  · subst hm
    rw [hdecl] at hd
    exact FuncDecl.inert_toFunc hf howner hspelled hd
  · have hτ := hresolved _ hr
    rw [hdecl] at hτ hd
    exact hτ.inert hsymbol howner hspelled hd

/-- The types that inert declarations compile into are spelled by inert names, whatever types their fields
have. -/
theorem Turn.inert_cIdent {t : Turn} (hanswers : t.Answers owner) (howner : ∀ x ∈ owner, Text.Inert x)
    (hd : t.decl.Inert) : ∀ τ ∈ t.output.types, Text.Inert τ.symbol.cIdent := by
  refine (hanswers.forall_output (fun _ _ _ _ _ _ _ => trivial) fun d τ hdecl _ _ hsymbol => ?_).2
  rw [hdecl] at hd
  have hname : Text.Inert d.ident := hd.names _ List.mem_cons_self
  rw [hsymbol]
  exact inert_qualify howner hname

end linked

/-- What a name means at a place of the output is a type of the output or a builtin one. -/
theorem Output.meaning_cases {o : Output} {config : Config} {m : Option StateMachine} (hm : m ∈ o.places)
    {name : String} {τ : TypeSymbol} (h : o.meaning config m name = some τ) :
    (∃ def' ∈ o.allTypes, def'.symbol = τ) ∨ config.builtin? name = some τ := by
  have hnamed : ∀ place ∈ o.places, TypeDef.named (o.typesAt place) name = some τ →
      ∃ def' ∈ o.allTypes, def'.symbol = τ := by
    intro place hplace hfound
    obtain ⟨def', hdef, hsymbol⟩ := List.mem_map.mp (List.mem_of_find?_eq_some hfound)
    exact ⟨def', List.mem_flatMap.mpr ⟨place, hplace, hdef⟩, hsymbol⟩
  rw [meaning, Option.or_eq_some_iff, Option.or_eq_some_iff] at h
  rcases h with (h | ⟨-, h⟩) | ⟨-, h⟩
  · obtain ⟨m, rfl, h⟩ := Option.bind_eq_some_iff.mp h
    exact .inl (hnamed _ hm h)
  · exact .inl (hnamed none List.mem_cons_self h)
  · exact .inr h

theorem Config.builtin?_cases {config : Config} {name : String} {τ : TypeSymbol}
    (h : config.builtin? name = some τ) :
    τ = .void ∨ ∃ b ∈ config.types, τ = .builtin b.ident b.cIdent := by
  unfold Config.builtin? at h
  split at h
  · cases h
    exact .inl rfl
  · obtain ⟨b, hb, rfl⟩ := Option.map_eq_some_iff.mp h
    exact .inr ⟨b, List.mem_of_find?_eq_some hb, rfl⟩

theorem Output.mem_allTypes_of_meaning {o : Output} {config : Config} {m : Option StateMachine}
    (hm : m ∈ o.places) {name header : String} {τ : TypeSymbol}
    (h : o.meaning config m name = some τ) (hτ : τ.DeclaredIn header) :
    ∃ def' ∈ o.allTypes, def'.symbol = τ := by
  rcases Output.meaning_cases hm h with h | h
  · exact h
  · -- The builtin types have no headers.
    obtain rfl | ⟨b, -, rfl⟩ := Config.builtin?_cases h
    · cases hτ.nonVoid
    · cases hτ.internal

/-- The spellings of the builtin types of a configuration. -/
def Config.spellings (config : Config) : List String := config.types.map fun b => b.cIdent.getD b.ident

theorem Output.inert_meaning {o : Output} {config : Config} {m : Option StateMachine} (hm : m ∈ o.places)
    (htypes : ∀ τ ∈ o.allTypes, Text.Inert τ.symbol.cIdent)
    (hconfig : ∀ spelling ∈ config.spellings, Text.Inert spelling) :
    ∀ name τ, o.meaning config m name = some τ → Text.Inert τ.cIdent := by
  intro name τ h
  rcases Output.meaning_cases hm h with ⟨def', hdef, rfl⟩ | h
  · exact htypes def' hdef
  · obtain rfl | ⟨b, hb, rfl⟩ := Config.builtin?_cases h
    · decide
    · exact hconfig _ (List.mem_map_of_mem hb)

/-! ### Headers that are included -/

/-- The unit is one of the output. The lines of its text that include headers are those of these headers, each
once, and each of the headers is a unit of the output. -/
structure OutputUnit.Includes (u : OutputUnit) (o : Output) (headers : String → Prop) : Prop where
  emitted : u ∈ o.units
  exact : ∃ included : List String, u.includeLines = included.map includeLine ∧ included.Nodup ∧
    ∀ header, header ∈ included ↔ headers header
  closed : ∀ header, headers header → header ∈ o.units.map OutputUnit.name

/-- Each unit includes the headers of the types that it mentions and nothing else, and there is a unit for
each header that is included. -/
structure Output.Includes (config : Config) (o : Output) : Prop where
  functions : ∀ m ∈ o.places, ∀ f ∈ o.functionsAt m, ∀ u, functionUnit m f = some u →
    u.Includes o fun header => (∃ x, m = some x ∧ header = headerName x.controller) ∨
      ∃ τ ∈ f.signatureTypes, τ.DeclaredIn header
  structures : ∀ m ∈ o.places, ∀ τ ∈ o.typesAt m, τ.symbol.isExternal = false →
    τ.symbol.isEnumeration = false →
    (header τ.symbol.cIdent (structureBody τ)).Includes o fun header =>
      ∃ field ∈ τ.symbol.fields, ∃ σ, o.meaning config m field.typeName = some σ ∧ σ ≠ τ.symbol ∧
        σ.DeclaredIn header
  enumerations : ∀ τ ∈ o.allTypes, τ.symbol.isExternal = false → ∀ values,
    τ.symbol.kind = .enumeration values →
    header τ.symbol.cIdent (enumerationBody τ values) ∈ o.units ∧
    (header τ.symbol.cIdent (enumerationBody τ values)).includeLines = ["#include <string>"] ∧
    (enumerationSource τ.symbol.cIdent values).Includes o (· = headerName τ.symbol.cIdent)
  controllers : ∀ m ∈ o.machines, (controllerUnit m).Includes o fun header =>
    (∃ τ ∈ m.types, τ.symbol.DeclaredIn header) ∨
      ∃ f ∈ m.functions, ∃ τ ∈ f.signatureTypes, τ.DeclaredIn header
  /-- There are no other units. -/
  complete : ∀ u ∈ o.units, (∃ m ∈ o.places, ∃ f ∈ o.functionsAt m, functionUnit m f = some u) ∨
    (∃ τ ∈ o.allTypes, u ∈ typeUnits τ) ∨ ∃ m ∈ o.machines, u = controllerUnit m

/-! ### One unit after another -/

theorem NameSet.nodup_names (s : NameSet) : s.names.Nodup := by
  refine (NameMap.names_pairwise s).imp ?_
  rintro a _ h rfl
  exact String.lt_irrefl a h

section units

variable {o : Output} {config : Config} {m : Option StateMachine} {header : String}

/-- A header that declares what a name means is a unit. -/
theorem Output.mem_names_of_meaning (hm : m ∈ o.places) {name : String} {τ : TypeSymbol}
    (h : o.meaning config m name = some τ) (hτ : τ.DeclaredIn header) :
    header ∈ o.units.map OutputUnit.name := by
  obtain ⟨def', hdef, rfl⟩ := mem_allTypes_of_meaning hm h hτ
  rw [hτ.header]
  exact mem_names_of_type hdef hτ.internal

theorem Func.mem_signatureHeaders {f : Func} :
    header ∈ f.signatureHeaders ↔ ∃ τ ∈ f.signatureTypes, τ.DeclaredIn header := by
  simp only [signatureHeaders, List.mem_filterMap, TypeSymbol.header_eq_some]

theorem Func.mem_names_of_signature {f : Func} (hm : m ∈ o.places) (hf : f.Linked (o.meaning config m))
    {τ : TypeSymbol} (hτ : τ ∈ f.signatureTypes) (hdeclared : τ.DeclaredIn header) :
    header ∈ o.units.map OutputUnit.name := by
  obtain ⟨name, hname⟩ := hf τ hτ
  exact Output.mem_names_of_meaning hm hname hdeclared

theorem Output.function_mem_units {f : Func} {u : OutputUnit} (hm : m ∈ o.places)
    (hf : f ∈ o.functionsAt m) (hu : functionUnit m f = some u) : u ∈ o.units :=
  o.perm_units.mem_iff.mpr (List.mem_append_right _ (List.mem_append_right _
    (List.mem_flatMap.mpr ⟨m, hm, List.mem_filterMap.mpr ⟨f, hf, hu⟩⟩)))

theorem Output.type_mem_units {τ : TypeDef} {u : OutputUnit} (hτ : τ ∈ o.allTypes)
    (hu : u ∈ typeUnits τ) : u ∈ o.units :=
  o.perm_units.mem_iff.mpr (List.mem_append_left _ (List.mem_flatMap.mpr ⟨τ, hτ, hu⟩))

theorem Output.controller_mem_units {x : StateMachine} (hx : x ∈ o.machines) :
    controllerUnit x ∈ o.units :=
  o.perm_units.mem_iff.mpr
    (List.mem_append_right _ (List.mem_append_left _ (List.mem_map_of_mem hx)))

/-- A function's unit includes the header of the controller, if it belongs to one, and those of its
signature. -/
theorem Func.includes_functionUnit {f : Func} {u : OutputUnit}
    (hnodup : (o.units.map OutputUnit.name).Nodup) (hm : m ∈ o.places) (hmem : f ∈ o.functionsAt m)
    (hf : f.Linked (o.meaning config m)) (howner : ∀ x ∈ m, Text.Inert x.ident) (hinert : f.Inert)
    (hu : functionUnit m f = some u) :
    u.Includes o fun header => (∃ x, m = some x ∧ header = headerName x.controller) ∨
      ∃ τ ∈ f.signatureTypes, τ.DeclaredIn header := by
  have hmachine : ∀ x, m = some x → x ∈ o.machines := by
    rintro x rfl
    simpa [Output.places] using hm
  refine ⟨Output.function_mem_units hm hmem hu,
    ⟨f.includes m, includeLines_functionUnit howner hinert hu, ?_, fun header => ?_⟩, ?_⟩
  · refine List.nodup_append.mpr ⟨?_, NameSet.nodup_names _, ?_⟩
    · cases m <;> simp
    · intro header hheader other hother heq
      obtain ⟨x, hx, rfl⟩ := Option.map_eq_some_iff.mp (Option.mem_toList.mp hheader)
      obtain ⟨τ, hτ, hdeclared⟩ := mem_signatureHeaders.mp (NameSet.mem_names_ofNames.mp hother)
      obtain ⟨name, hname⟩ := hf τ hτ
      obtain ⟨def', hdef, rfl⟩ := Output.mem_allTypes_of_meaning hm hname hdeclared
      exact Output.headerName_ne_controller hnodup hdef hdeclared.internal (hmachine x hx)
        (hdeclared.header.symm.trans heq.symm)
  · rw [Func.includes, List.mem_append, Option.mem_toList, Option.map_eq_some_iff,
      NameSet.mem_names_ofNames, mem_signatureHeaders]
    simp only [eq_comm]
  · rintro header (⟨x, hx, rfl⟩ | ⟨τ, hτ, hdeclared⟩)
    · exact Output.mem_names_of_machine (hmachine x hx)
    · exact mem_names_of_signature hm hf hτ hdeclared

/-- The headers of a structure's fields are those that declare the types of the names on record. -/
theorem TypeDef.Linked.header_of_members {τ : TypeDef} {meaning : String → Option TypeSymbol}
    (h : τ.Linked meaning) : (∃ member ∈ τ.members, member.header = some header) ↔
      ∃ field ∈ τ.symbol.fields, ∃ σ, meaning field.typeName = some σ ∧ σ.DeclaredIn header := by
  have hmap : τ.symbol.fields.map (fun field => (meaning field.typeName).bind TypeSymbol.header) =
      τ.members.map Member.header := by
    refine map_eq_of_forall₂ h ?_
    rintro field - member ⟨σ, hσ, htype⟩
    rw [hσ, Member.header, htype]
    rfl
  rw [← List.mem_map, ← hmap, List.mem_map]
  simp only [Option.bind_eq_some_iff, TypeSymbol.header_eq_some]

theorem TypeDef.includes_structure {τ : TypeDef} (hnodup : (o.units.map OutputUnit.name).Nodup)
    (hm : m ∈ o.places) (hτ : τ ∈ o.typesAt m) (hinternal : τ.symbol.isExternal = false)
    (hkind : τ.symbol.isEnumeration = false) (hlinked : τ.Linked (o.meaning config m))
    (hinert : τ.Inert) :
    (Emit.header τ.symbol.cIdent (structureBody τ)).Includes o fun header =>
      ∃ field ∈ τ.symbol.fields, ∃ σ, o.meaning config m field.typeName = some σ ∧ σ ≠ τ.symbol ∧
        σ.DeclaredIn header := by
  -- To leave out the structure's own header is to leave out fields of the structure's own type.
  have hself : ∀ {name header σ}, o.meaning config m name = some σ → σ.DeclaredIn header →
      (header ≠ headerName τ.symbol.cIdent ↔ σ ≠ τ.symbol) := by
    intro name header σ hσ hdeclared
    refine not_congr ⟨fun heq => ?_, fun heq => ?_⟩
    · obtain ⟨def', hdef, rfl⟩ := Output.mem_allTypes_of_meaning hm hσ hdeclared
      rw [Output.type_of_headerName hnodup hdef (List.mem_flatMap.mpr ⟨m, hm, hτ⟩) hdeclared.internal
        hinternal (hdeclared.header.symm.trans heq)]
    · rw [hdeclared.header, heq]
  refine ⟨Output.type_mem_units (List.mem_flatMap.mpr ⟨m, hm, hτ⟩)
    (TypeDef.structure_mem_typeUnits hinternal hkind),
    ⟨τ.includes, includeLines_structure hinert, NameSet.nodup_names _, fun header => ?_⟩, ?_⟩
  · rw [TypeDef.includes, NameSet.mem_names_ofNames, List.mem_filter, List.mem_filterMap,
      hlinked.header_of_members, decide_eq_true_iff]
    constructor
    · rintro ⟨⟨field, hfield, σ, hσ, hdeclared⟩, hne⟩
      exact ⟨field, hfield, σ, hσ, (hself hσ hdeclared).mp hne, hdeclared⟩
    · rintro ⟨field, hfield, σ, hσ, hne, hdeclared⟩
      exact ⟨⟨field, hfield, σ, hσ, hdeclared⟩, (hself hσ hdeclared).mpr hne⟩
  · rintro header ⟨_, _, σ, hσ, -, hdeclared⟩
    exact Output.mem_names_of_meaning hm hσ hdeclared

theorem TypeDef.includes_source {τ : TypeDef} {values : List String} (hτ : τ ∈ o.allTypes)
    (hinternal : τ.symbol.isExternal = false) (hkind : τ.symbol.kind = .enumeration values)
    (hinert : τ.Inert) :
    (enumerationSource τ.symbol.cIdent values).Includes o (· = headerName τ.symbol.cIdent) := by
  refine ⟨Output.type_mem_units hτ (TypeDef.enumeration_mem_typeUnits hinternal hkind).2,
    ⟨[headerName τ.symbol.cIdent], includeLines_source hinert.cIdent (hinert.values values hkind),
      List.nodup_singleton _, fun header => List.mem_singleton⟩, ?_⟩
  rintro _ rfl
  exact Output.mem_names_of_type hτ hinternal

theorem StateMachine.includes_controller {x : StateMachine} (hx : x ∈ o.machines)
    (hlinked : ∀ f ∈ x.functions, f.Linked (o.meaning config (some x))) (hinert : x.Inert) :
    (controllerUnit x).Includes o fun header =>
      (∃ τ ∈ x.types, τ.symbol.DeclaredIn header) ∨
        ∃ f ∈ x.functions, ∃ τ ∈ f.signatureTypes, τ.DeclaredIn header := by
  have hplace : some x ∈ o.places := List.mem_cons_of_mem _ (List.mem_map_of_mem hx)
  refine ⟨Output.controller_mem_units hx,
    ⟨x.includes, includeLines_controller hinert, NameSet.nodup_names _, fun header => ?_⟩, ?_⟩
  · rw [StateMachine.includes, NameSet.mem_names_ofNames, List.mem_append, List.mem_filterMap,
      List.mem_flatMap]
    simp only [TypeSymbol.header_eq_some, Func.mem_signatureHeaders]
  · rintro header (⟨τ, hτ, hdeclared⟩ | ⟨f, hf, τ, hτ, hdeclared⟩)
    · rw [hdeclared.header]
      exact Output.mem_names_of_type (List.mem_flatMap.mpr ⟨_, hplace, hτ⟩) hdeclared.internal
    · exact Func.mem_names_of_signature hplace (hlinked f hf) hτ hdeclared

end units

/-! ### What stands at a place of the output -/

/-- The declarations of a place: those of the list at top level, and the members of the declaration that a
machine comes of. -/
inductive Decl.StandAt (ds : List Decl) : Option StateMachine → List Decl → Prop
  | top : StandAt ds none ds
  | machine {d : MachineDecl Decl} {x : StateMachine} : .machine d ∈ ds → x.ident = d.ident →
      x.attributes = .ofPairs d.pairs → StandAt ds (some x) d.members

theorem Decl.StandAt.inert {ds us : List Decl} {m : Option StateMachine} (h : StandAt ds m us)
    (hds : ∀ d ∈ ds, d.Inert) : (∀ u ∈ us, u.Inert) ∧
      (∀ ident ∈ m.map StateMachine.ident, Text.Inert ident) ∧
      ∀ x ∈ m, ∀ text ∈ x.attributes.desc, '\n' ∉ text.toList := by
  cases h with
  | top => exact ⟨hds, nofun, nofun⟩
  | @machine d x hmem hident hattributes =>
      have hd := hds _ hmem
      refine ⟨hd.members, ?_, ?_⟩
      · rintro _ ⟨⟩
        rw [hident]
        exact hd.names _ List.mem_cons_self
      · rintro _ ⟨⟩ text htext
        rw [hattributes] at htext
        exact hd.remarks text (List.mem_append_left _ (Option.mem_toList.mpr htext))

namespace Session

section includes

variable {s₀ s : Session} {ds : List Decl} {config : Config} {out : Output}
  (h₀ : Session.start config = .ok s₀) (hc : s₀.compile ds = .ok (s, out))
  (herrors : out.hasErrors = false)

include h₀ hc herrors

/-- What stands at a place comes of the turns of its declarations, and at all of them names of types mean what
they mean at the place. -/
theorem turns_of_place {m : Option StateMachine} (hm : m ∈ out.places) :
    ∃ ts : List Turn, Decl.StandAt ds m (ts.map Turn.decl) ∧
      out.functionsAt m = (Turn.outputs ts).functions ∧ out.typesAt m = (Turn.outputs ts).types ∧
      ∀ t ∈ ts, t.Resolved (m.map StateMachine.ident) ∧ t.Answers (m.map StateMachine.ident) ∧
        t.table.findType? = out.meaning config m := by
  have hs := sound_start h₀
  obtain ⟨hdecls, htables, hanswers, -⟩ := turns_spec hs ds
  have hresolved := resolved_turns hs ds
  have houtput := output_of_compile hs hc
  rcases List.mem_cons.mp hm with rfl | hm
  · have htop := (findType?_meaning h₀ hc herrors).2
    refine ⟨s₀.turns ds, ?_, congrArg Output.functions houtput, congrArg Output.types houtput,
      fun t ht => ⟨(hresolved t ht).1, hanswers t ht, (hresolved t ht).2.trans htop⟩⟩
    rw [hdecls]
    exact .top
  · obtain ⟨x, hx, rfl⟩ := List.mem_map.mp hm
    rw [houtput] at hx
    obtain ⟨w, hw, d, c, hdecl, hresult, rfl, hd⟩ := Turn.exists_of_mem_machines hx hanswers
    have hclean := Turn.errors_of_hasErrors hresult (turn_of_compile h₀ hc herrors hw).2
    have hinner := findType?_inner h₀ hc herrors hw hd hclean
    obtain ⟨hgains, -⟩ := d.gains_compile (htables w hw) hd
    obtain ⟨hmemberDecls, hmemberAnswers, -⟩ := d.turns_spec (htables w hw)
    have hmembers := d.resolved_turns (htables w hw)
    have hident : c.machine.ident = d.ident := hgains.ident
    have hlisted : Decl.machine d ∈ ds := by
      rw [← hdecls, ← hdecl]
      exact List.mem_map_of_mem hw
    refine ⟨d.turns w.table, ?_, hgains.functions, hgains.types, fun t ht => ?_⟩
    · rw [hmemberDecls]
      exact .machine hlisted hident hgains.attributes
    · rw [Option.map_some, hident]
      exact ⟨(hmembers t ht).1, hmemberAnswers t ht, (hmembers t ht).2.trans hinner⟩

/-- At every place the types mentioned are those that names mean there. -/
theorem linked_of_compile {m : Option StateMachine} (hm : m ∈ out.places) :
    (∀ f ∈ out.functionsAt m, f.Linked (out.meaning config m)) ∧
      ∀ τ ∈ out.typesAt m, τ.Linked (out.meaning config m) := by
  obtain ⟨ts, -, hfunctions, htypes, hts⟩ := turns_of_place h₀ hc herrors hm
  rw [hfunctions, htypes]
  refine Turn.forall_outputs fun t ht => ?_
  obtain ⟨hresolved, hanswers, hmeaning⟩ := hts t ht
  exact Turn.linked_output hresolved hanswers hmeaning

variable (hnames : ∀ name ∈ config.spellings ++ Decl.namesAll ds, Text.Inert name)
  (hremarks : ∀ text ∈ Decl.remarksAll ds, '\n' ∉ text.toList)

include hnames hremarks

/-- What is written of inert names and spellings is inert, at every place. -/
theorem inert_of_compile {m : Option StateMachine} (hm : m ∈ out.places) :
    (∀ f ∈ out.functionsAt m, f.Inert) ∧ (∀ τ ∈ out.typesAt m, τ.Inert) ∧
      (∀ ident ∈ m.map StateMachine.ident, Text.Inert ident) ∧
      ∀ x ∈ m, ∀ text ∈ x.attributes.desc, '\n' ∉ text.toList := by
  obtain ⟨hspellings, hdecls⟩ := List.forall_mem_append.mp hnames
  have hds := Decl.inert_of_mem hdecls hremarks
  -- The spellings of all types come first: a declaration mentions types of other places, too.
  have hcIdents : ∀ τ ∈ out.allTypes, Text.Inert τ.symbol.cIdent := by
    intro τ hτ
    obtain ⟨place, hplace, hτ⟩ := List.mem_flatMap.mp hτ
    obtain ⟨ts, hstand, -, htypes, hts⟩ := turns_of_place h₀ hc herrors hplace
    obtain ⟨hmembers, howner, -⟩ := hstand.inert hds
    rw [htypes] at hτ
    obtain ⟨t, ht, hτ⟩ := Turn.exists_of_mem_outputs Output.types rfl (fun _ _ => rfl) hτ
    exact Turn.inert_cIdent (hts t ht).2.1 howner (hmembers _ (List.mem_map_of_mem ht)) τ hτ
  obtain ⟨ts, hstand, hfunctions, htypes, hts⟩ := turns_of_place h₀ hc herrors hm
  obtain ⟨hmembers, howner, hdesc⟩ := hstand.inert hds
  have hout := Turn.forall_outputs fun t ht => by
    obtain ⟨hresolved, hanswers, hmeaning⟩ := hts t ht
    exact Turn.inert_output hresolved hanswers hmeaning howner
      (Output.inert_meaning hm hcIdents hspellings) (hmembers _ (List.mem_map_of_mem ht))
  rw [hfunctions, htypes]
  exact ⟨hout.1, hout.2, howner, hdesc⟩

theorem inert_machine {x : StateMachine} (hx : x ∈ out.machines) : x.Inert := by
  have hplace : some x ∈ out.places := List.mem_cons_of_mem _ (List.mem_map_of_mem hx)
  obtain ⟨hfunctions, htypes, hident, hdesc⟩ := inert_of_compile h₀ hc herrors hnames hremarks hplace
  exact ⟨hident _ rfl, hdesc x rfl, hfunctions, htypes⟩

/-- The units of an output without errors include the headers of what they mention, and no others, and
each header that is included is a unit. What is written as it is given must not be taken for an include line:
names and spellings are inert, and descriptions and file names have no line breaks. -/
theorem compile_includes : out.Includes config := by
  have hlinked := fun {m} => linked_of_compile (m := m) h₀ hc herrors
  have hinert := fun {m} => inert_of_compile (m := m) h₀ hc herrors hnames hremarks
  have hnodup : (out.units.map OutputUnit.name).Nodup := by
    have hs := sound_start h₀
    rw [output_of_compile hs hc]
    exact ((perm_sortByName _).map OutputUnit.name).nodup_iff.mpr (names_unsortedUnits hs ds).1
  constructor
  case functions =>
    intro m hm f hf u hu
    obtain ⟨hfunctions, -, howner, -⟩ := hinert hm
    exact Func.includes_functionUnit hnodup hm hf ((hlinked hm).1 f hf)
      (fun x hx => howner _ (Option.mem_map_of_mem _ hx)) (hfunctions f hf) hu
  case structures =>
    intro m hm τ hτ hinternal hkind
    exact TypeDef.includes_structure hnodup hm hτ hinternal hkind ((hlinked hm).2 τ hτ)
      ((hinert hm).2.1 τ hτ)
  case enumerations =>
    intro τ hτ hinternal values hkind
    obtain ⟨m, hm, hmem⟩ := List.mem_flatMap.mp hτ
    have hτinert : τ.Inert := (hinert hm).2.1 τ hmem
    exact ⟨Output.type_mem_units hτ (TypeDef.enumeration_mem_typeUnits hinternal hkind).1,
      includeLines_enumeration hτinert hkind, TypeDef.includes_source hτ hinternal hkind hτinert⟩
  case controllers =>
    intro x hx
    have hplace : some x ∈ out.places := List.mem_cons_of_mem _ (List.mem_map_of_mem hx)
    exact StateMachine.includes_controller hx (hlinked hplace).1
      (inert_machine h₀ hc herrors hnames hremarks hx)
  case complete =>
    intro u hu
    rcases List.mem_append.mp (out.perm_units.mem_iff.mp hu) with hu | hu
    · exact .inr (.inl (List.mem_flatMap.mp hu))
    · rcases List.mem_append.mp hu with hu | hu
      · obtain ⟨m, hm, rfl⟩ := List.mem_map.mp hu
        exact .inr (.inr ⟨m, hm, rfl⟩)
      · obtain ⟨m, hm, hu⟩ := List.mem_flatMap.mp hu
        obtain ⟨f, hf, hu⟩ := List.mem_filterMap.mp hu
        exact .inl ⟨m, hm, f, hf, hu⟩

end includes

/-- A machine with a list of lines, each in a state that is declared at top level. -/
def lineList : List Decl := [
  .machine { ident := "L1", members := [
    .func {
      returnType := { ident := "State" }, ident := "head"
      formals := [{ type := { ident := "Line" }, ident := "line" },
        { type := { ident := "State" }, ident := "state" }]
      statements := some [.ret (some (.var "state" {})) {}] },
    .type { ident := "Line", body := .record [{ type := { ident := "Line" }, ident := "next" },
      { type := { ident := "State" }, ident := "state" },
      { type := { ident := "int" }, ident := "tag" }] }] },
  .type { ident := "State", body := .enumeration ["I", "M"] }]

/-- The units of the list, with the include lines of the function's. -/
theorem compile_includes_lineList : ∃ s₀ s out, Session.start .prelude = .ok s₀ ∧
    s₀.compile lineList = .ok (s, out) ∧ out.hasErrors = false ∧
    out.units.map OutputUnit.name =
      ["L1_Controller.hh", "L1_Line.hh", "L1_head.cc", "State.cc", "State.hh"] ∧
    (∃ u ∈ out.units, u.name = "L1_head.cc" ∧ u.includeLines =
      ["#include \"L1_Controller.hh\"", "#include \"L1_Line.hh\"", "#include \"State.hh\""]) ∧
    out.Includes .prelude := by
  have hrun : ((Session.start .prelude).toOption.bind fun s =>
      (s.compile lineList).toOption.map fun r => decide (r.2.hasErrors = false ∧
        r.2.units.map OutputUnit.name =
          ["L1_Controller.hh", "L1_Line.hh", "L1_head.cc", "State.cc", "State.hh"] ∧
        ∃ u ∈ r.2.units, u.name = "L1_head.cc" ∧ u.includeLines =
          ["#include \"L1_Controller.hh\"", "#include \"L1_Line.hh\"",
            "#include \"State.hh\""])) = some true := by
    decide +kernel
  obtain ⟨s₀, hs₀, hrun⟩ := Option.bind_eq_some_iff.mp hrun
  obtain ⟨⟨s, out⟩, hc, hrun⟩ := Option.map_eq_some_iff.mp hrun
  obtain ⟨herrors, hunits, hlines⟩ := of_decide_eq_true hrun
  rw [toOption_eq_some] at hs₀ hc
  exact ⟨s₀, s, out, hs₀, hc, herrors, hunits, hlines,
    compile_includes hs₀ hc herrors (by decide +kernel) (by decide +kernel)⟩

/-- What stands after a line break in a description may include a header that is no unit. The structure has
no fields, so its header has nothing to include. -/
theorem description_includes : ∃ s₀ s out, Session.start .prelude = .ok s₀ ∧
    s₀.compile [labelledState "x\n#include \"nowhere.hh\""] = .ok (s, out) ∧ out.hasErrors = false ∧
    (∀ τ ∈ out.types, τ.symbol.fields = []) ∧
    out.units.map (fun u => (u.name, u.includeLines)) = [("State.hh", ["#include \"nowhere.hh\""])] := by
  have hrun : ((Session.start .prelude).toOption.bind fun s =>
      (s.compile [labelledState "x\n#include \"nowhere.hh\""]).toOption.map fun r => decide (
        r.2.hasErrors = false ∧ (∀ τ ∈ r.2.types, τ.symbol.fields = []) ∧
        r.2.units.map (fun u => (u.name, u.includeLines)) =
          [("State.hh", ["#include \"nowhere.hh\""])])) = some true := by
    decide +kernel
  obtain ⟨s₀, hs₀, hrun⟩ := Option.bind_eq_some_iff.mp hrun
  obtain ⟨⟨s, out⟩, hc, hrun⟩ := Option.map_eq_some_iff.mp hrun
  rw [toOption_eq_some] at hs₀ hc
  exact ⟨s₀, s, out, hs₀, hc, of_decide_eq_true hrun⟩

end Session

end Coherence
