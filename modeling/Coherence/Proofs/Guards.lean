import Coherence.Proofs.UnitLines
import Coherence.Proofs.UnitNames
import Mathlib.Data.List.Nodup
/-!
# Guards of headers

Every header is guarded by a macro that is made from its name, with all letters raised
(`OutputUnit.Guarded`). No two units have the same name, but names that differ in the case of their letters
alone have the same guard (`Session.headers_guarded`).
-/

namespace Coherence

/-! ### Guards -/

/-- The unit is skipped when it is read again, and when another one with the same guard was read before. -/
def OutputUnit.Guarded (u : OutputUnit) (guard : String) : Prop :=
  ∃ body, u.contents = "#ifndef " ++ guard ++ "\n#define " ++ guard ++ "\n\n" ++ body ++
    "\n#endif // " ++ guard ++ "\n"

namespace Emit

open Listing

theorem guarded_header {ident : String} {body : Listing → Listing} {lines : List String}
    (h : ∀ l : Listing, l.depth = 0 → body l = l.append lines) :
    (header ident body).Guarded (includeGuard ident) := by
  refine ⟨String.join (lines.map (· ++ "\n")), ?_⟩
  rw [header_eq, headerLines_eq h, text_append, ← String.toList_inj]
  simp [text]

end Emit

theorem headerName_inj {x y : String} : headerName x = headerName y ↔ x = y := by
  unfold headerName
  simp

theorem includeGuard_inj {x y : String} :
    includeGuard x = includeGuard y ↔ Text.uppercase x = Text.uppercase y := by
  unfold includeGuard
  simp

/-- Of ASCII characters the letters are raised to the capital ones. -/
theorem Text.toList_uppercase_ascii {x : String} (h : ∀ c ∈ x.toList, c.toNat < 0x80) :
    (Text.uppercase x).toList = x.toList.map Char.toUpper := by
  unfold Text.uppercase
  rw [String.toList_ofList]
  generalize x.toList = cs at h
  induction cs with
  | nil => rfl
  | cons c cs ih =>
      obtain ⟨hc, hcs⟩ := List.forall_mem_cons.mp h
      rw [List.flatMap_cons, ih hcs, Text.raise, if_pos hc]
      rfl

/-! ### Units -/

/-- The unit is one of definitions, or a header that is guarded by its name. -/
def OutputUnit.Shaped (u : OutputUnit) : Prop :=
  ∃ x, u.name = sourceName x ∨ u.name = headerName x ∧ u.Guarded (includeGuard x)

namespace Emit

theorem shaped_functionUnit {m : Option StateMachine} {f : Func} {u : OutputUnit}
    (h : functionUnit m f = some u) : u.Shaped := by
  obtain ⟨name, definition, hname, -, rfl⟩ := functionUnit_eq_some.mp h
  unfold Func.outputFile at hname
  split at hname
  · cases hname
  · cases hname
    exact ⟨f.cIdent, .inl rfl⟩

theorem shaped_typeUnits {d : TypeDef} : ∀ u ∈ typeUnits d, u.Shaped := by
  intro u hu
  have hstructure : (header d.symbol.cIdent (structureBody d)).Shaped :=
    ⟨d.symbol.cIdent, .inr ⟨rfl, guarded_header fun l hl => structureBody_eq d hl⟩⟩
  unfold typeUnits at hu
  split at hu
  · cases hu
  · split at hu
    · rename_i values _
      rcases List.mem_cons.mp hu with rfl | hu
      · exact ⟨d.symbol.cIdent, .inl rfl⟩
      · rw [List.mem_singleton.mp hu]
        exact ⟨d.symbol.cIdent, .inr ⟨rfl, guarded_header fun l hl => enumerationBody_eq d values hl⟩⟩
    · rw [List.mem_singleton.mp hu]
      exact hstructure

theorem shaped_machineUnits {m : StateMachine} : ∀ u ∈ machineUnits m, u.Shaped := by
  intro u hu
  unfold machineUnits at hu
  rcases List.mem_append.mp hu with hu | hu
  · rcases List.mem_cons.mp hu with rfl | hu
    · exact ⟨m.controller, .inr ⟨rfl, guarded_header fun l hl => controllerBody_eq m hl⟩⟩
    · obtain ⟨d, -, hu⟩ := List.mem_flatMap.mp hu
      exact shaped_typeUnits u hu
  · obtain ⟨f, -, hu⟩ := List.mem_filterMap.mp hu
    exact shaped_functionUnit hu

end Emit

theorem Output.shaped_units (o : Output) : ∀ u ∈ o.units, u.Shaped := by
  intro u hu
  rw [Output.units, (Emit.perm_sortByName _).mem_iff] at hu
  rcases List.mem_append.mp hu with hu | hu
  · rcases List.mem_append.mp hu with hu | hu
    · obtain ⟨f, -, hu⟩ := List.mem_filterMap.mp hu
      exact Emit.shaped_functionUnit hu
    · obtain ⟨d, -, hu⟩ := List.mem_flatMap.mp hu
      exact Emit.shaped_typeUnits u hu
  · obtain ⟨m, -, hu⟩ := List.mem_flatMap.mp hu
    exact Emit.shaped_machineUnits u hu

theorem Output.guarded_header (o : Output) {u : OutputUnit} (hu : u ∈ o.units) {x : String}
    (hx : u.name = headerName x) : u.Guarded (includeGuard x) := by
  obtain ⟨z, hz | ⟨hz, hguarded⟩⟩ := o.shaped_units u hu
  · exact absurd (hx.symm.trans hz) (headerName_ne_sourceName x z)
  · rw [headerName_inj.mp (hx.symm.trans hz)]
    exact hguarded

namespace Session

variable {config : Config} {s s' : Session} {ds : List Decl} {out : Output}

/-- Each header of an output is guarded by the macro of its own name. Two of them always have different
names, but the same guard if the names differ in the case of letters alone: in names of ASCII characters
exactly then. -/
theorem headers_guarded (hs : Reached config s) (hc : s.compile ds = .ok (s', out)) :
    (∀ u ∈ out.units, ∀ x, u.name = headerName x → u.Guarded (includeGuard x)) ∧
    ∀ u ∈ out.units, ∀ v ∈ out.units, u ≠ v → ∀ x y, u.name = headerName x → v.name = headerName y →
      x ≠ y ∧ (includeGuard x = includeGuard y ↔ Text.uppercase x = Text.uppercase y) ∧
      ((∀ c ∈ x.toList ++ y.toList, c.toNat < 0x80) → (includeGuard x = includeGuard y ↔
        x.toList.map Char.toUpper = y.toList.map Char.toUpper)) := by
  obtain ⟨_, _, hc', -, -, -, hsorted, -⟩ := names_units hs ds
  rw [hc] at hc'
  cases hc'
  refine ⟨fun u hu x => out.guarded_header hu,
    fun u hu v hv huv x y hx hy => ⟨?_, includeGuard_inj, fun hascii => ?_⟩⟩
  · rintro rfl
    have hnodup : (out.units.map OutputUnit.name).Nodup := hsorted.imp fun h => String.ne_of_lt h
    exact huv (List.inj_on_of_nodup_map hnodup hu hv (hx.trans hy.symm))
  · obtain ⟨hx, hy⟩ := List.forall_mem_append.mp hascii
    rw [includeGuard_inj, ← String.toList_inj, Text.toList_uppercase_ascii hx,
      Text.toList_uppercase_ascii hy]

/-- Two structures whose names differ in one letter's case, and a machine with a type of its own. -/
def stateTwice : List Decl := [
  .type { ident := "State", body := .record [] }, .type { ident := "state", body := .record [] },
  .machine { ident := "L1", members := [.type { ident := "State", body := .enumeration ["I"] }] }]

theorem stateTwice_compiles : ∃ s₀ s out, Session.start .prelude = .ok s₀ ∧
    s₀.compile stateTwice = .ok (s, out) ∧ out.hasErrors = false ∧
    ["State.hh", "state.hh", "L1_State.hh", "L1_Controller.hh"] ⊆ out.units.map OutputUnit.name := by
  have hrun : ((Session.start .prelude).toOption.bind fun s =>
      (s.compile stateTwice).toOption.map fun r => decide (r.2.hasErrors = false ∧
        ["State.hh", "state.hh", "L1_State.hh", "L1_Controller.hh"] ⊆
          r.2.units.map OutputUnit.name)) = some true := by decide +kernel
  obtain ⟨s₀, hs₀, hrun⟩ := Option.bind_eq_some_iff.mp hrun
  obtain ⟨⟨s, out⟩, hc, hrun⟩ := Option.map_eq_some_iff.mp hrun
  obtain ⟨herrors, hnames⟩ := of_decide_eq_true hrun
  rw [toOption_eq_some] at hs₀ hc
  exact ⟨s₀, s, out, hs₀, hc, herrors, hnames⟩

/-- The headers of the structures and of the machine's type, with their guards. -/
theorem headers_guarded_stateTwice : ∃ s₀ s out, Session.start .prelude = .ok s₀ ∧
    s₀.compile stateTwice = .ok (s, out) ∧ out.hasErrors = false ∧
    ∃ u ∈ out.units, ∃ v ∈ out.units, ∃ w ∈ out.units,
      u.name = headerName "State" ∧ v.name = headerName "L1_State" ∧ w.name = headerName "L1_Controller" ∧
      u.Guarded (includeGuard "State") ∧ v.Guarded (includeGuard "L1_State") ∧
      includeGuard "State" ≠ includeGuard "L1_State" ∧
      includeGuard "L1_State" ≠ includeGuard "L1_Controller" := by
  obtain ⟨s₀, s, out, hs₀, hc, herrors, hnames⟩ := stateTwice_compiles
  obtain ⟨hguarded, hdiffer⟩ := headers_guarded (.start hs₀) hc
  obtain ⟨u, hu, hname⟩ := List.mem_map.mp (hnames (a := "State.hh") (by simp))
  obtain ⟨v, hv, hname'⟩ := List.mem_map.mp (hnames (a := "L1_State.hh") (by simp))
  obtain ⟨w, hw, hname''⟩ := List.mem_map.mp (hnames (a := "L1_Controller.hh") (by simp))
  have huv : u ≠ v := by
    rintro rfl
    exact absurd (hname.symm.trans hname') (by decide)
  have hvw : v ≠ w := by
    rintro rfl
    exact absurd (hname'.symm.trans hname'') (by decide)
  obtain ⟨-, -, hascii⟩ := hdiffer u hu v hv huv "State" "L1_State" hname hname'
  obtain ⟨-, -, hascii'⟩ := hdiffer v hv w hw hvw "L1_State" "L1_Controller" hname' hname''
  refine ⟨s₀, s, out, hs₀, hc, herrors, u, hu, v, hv, w, hw, hname, hname', hname'',
    hguarded u hu _ hname, hguarded v hv _ hname', fun h => ?_, fun h => ?_⟩
  · exact absurd ((hascii (by simp)).mp h) (by decide)
  · exact absurd ((hascii' (by simp)).mp h) (by decide)

/-- The two structures compile without errors into two headers that have the same guard. -/
theorem headers_share_guard : ∃ s₀ s out, Session.start .prelude = .ok s₀ ∧
    s₀.compile stateTwice = .ok (s, out) ∧ out.hasErrors = false ∧
    ∃ u ∈ out.units, ∃ v ∈ out.units, u.name = "State.hh" ∧ v.name = "state.hh" ∧ u ≠ v ∧
      u.Guarded "__STATE_HH__" ∧ v.Guarded "__STATE_HH__" := by
  obtain ⟨s₀, s, out, hs₀, hc, herrors, hnames⟩ := stateTwice_compiles
  obtain ⟨u, hu, hname⟩ := List.mem_map.mp (hnames (a := "State.hh") (by simp))
  obtain ⟨v, hv, hname'⟩ := List.mem_map.mp (hnames (a := "state.hh") (by simp))
  have huv : u ≠ v := by
    rintro rfl
    exact absurd (hname.symm.trans hname') (by decide)
  have hguard : includeGuard "State" = "__STATE_HH__" := by decide +kernel
  have hguard' : includeGuard "state" = "__STATE_HH__" := by decide +kernel
  exact ⟨s₀, s, out, hs₀, hc, herrors, u, hu, v, hv, hname, hname', huv,
    hguard ▸ out.guarded_header hu hname, hguard' ▸ out.guarded_header hv hname'⟩

end Session

end Coherence
