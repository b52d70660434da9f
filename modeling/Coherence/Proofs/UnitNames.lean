import Coherence.Emit.Units
import Coherence.Proofs.Claims
/-!
# Names of units, before and after compiling

The names of an output's units can be told from the declarations alone: they are what the
declarations owe that compiled, and of a machine the header of its controller and what the members owe
that compiled (`Turn.Owes`). No two units have the same name, whatever failed
(`Session.names_units`).
-/

namespace Coherence

open Emit

/-! ### Functions and types -/

namespace FuncDecl

theorem body_compileBody {c : BodyContext} {t : SymbolTable} {body : Option (List Stmt)}
    {b : FuncBody} (h : (compileBody c t body).1 = .ok b) : b = .external ↔ body = none := by
  cases body with
  | none =>
      cases h
      simp
  | some statements =>
      obtain ⟨text, -, rfl⟩ := map_eq_ok.mp h
      simp

/-- What a compiled function takes over from its declaration. -/
theorem toFunc_eq_ok {s : Site} {d : FuncDecl} {f : Func} (h : (d.toFunc s).1 = .ok f) :
    f.ident = d.ident ∧ f.location = d.location ∧ f.machine = s.owner ∧
      f.attributes = (if d.body?.isNone then d.attributes.markExternal else d.attributes) ∧
      (f.body = .external ↔ d.body? = none) := by
  unfold toFunc at h
  split at h
  · cases h
  · obtain ⟨parts, hparts, h⟩ := bind_eq_ok.mp h
    have hbody : parts.body = .external ↔ d.body? = none := by
      unfold compileParts at hparts
      split at hparts
      · cases hparts
      · obtain ⟨b, hb, rfl⟩ := map_eq_ok.mp hparts
        exact body_compileBody hb
    unfold assemble at h
    split at h
    · cases h
    · cases h
      exact ⟨rfl, rfl, rfl, rfl, hbody⟩

/-- A definition is written for a function exactly if its declaration owes one. -/
theorem names_functionUnit {s : Site} {d : FuncDecl} {f : Func} (m : Option StateMachine)
    (h : (d.toFunc s).1 = .ok f) :
    (functionUnit m f).toList.map OutputUnit.name = d.outputNames s.owner := by
  obtain ⟨hident, -, hmachine, hattributes, hbody⟩ := toFunc_eq_ok h
  have hname : f.cIdent = qualify s.owner d.ident := by rw [Func.cIdent, hmachine, hident]
  unfold FuncDecl.outputNames FuncDecl.isExternal functionUnit Func.outputFile Func.isExternal
    Func.definition
  cases hd : d.body? with
  | none =>
      rw [hbody.mpr hd]
      simp
  | some statements =>
      rw [hd] at hattributes hbody
      simp only [Option.isNone_some, Bool.false_eq_true, if_false] at hattributes
      cases hf : f.body with
      | external => simp [hf] at hbody
      | generated text =>
          rw [hattributes, hname]
          cases d.attributes.external <;> simp [sourceName]

theorem nodup_outputNames (parent : Option String) (d : FuncDecl) :
    (d.outputNames parent).Nodup := by
  unfold outputNames
  split <;> simp

end FuncDecl

theorem headerName_ne_sourceName (x y : String) : headerName x ≠ sourceName y := by
  intro h
  have hlast := congrArg (fun s : String => s.toList.getLast?) h
  simp [headerName, sourceName] at hlast

namespace TypeDecl

theorem names_typeUnits {d : TypeDecl} {parent : Option String} {def' : TypeDef} {home : FrameId}
    (h : def'.symbol = { d.symbol parent with home }) :
    ((typeUnits def').map OutputUnit.name).Perm (d.outputNames parent) := by
  have hname : def'.symbol.cIdent = qualify parent d.ident := by rw [h]; rfl
  have hexternal : def'.symbol.isExternal = d.attributes.external := by rw [h]; rfl
  have hkind : def'.symbol.kind = d.kind := by rw [h]; rfl
  unfold typeUnits TypeDecl.outputNames
  rw [hexternal, hkind, hname]
  cases d.attributes.external with
  | true => exact .nil
  | false =>
      unfold kind
      cases d.body with
      | primitive => exact .refl _
      | record fields => exact .refl _
      | enumeration values => exact .swap _ _ _

theorem nodup_outputNames (parent : Option String) (d : TypeDecl) :
    (d.outputNames parent).Nodup := by
  unfold outputNames
  split
  · exact .nil
  · split
    · simp [headerName_ne_sourceName]
    · simp

end TypeDecl

/-! ### Turns -/

/-- The units of an output whose functions stand in a machine, or in none. -/
def Output.unitsIn (m : Option StateMachine) (o : Output) : List OutputUnit :=
  o.functions.filterMap (functionUnit m) ++ o.types.flatMap typeUnits ++
    o.machines.flatMap machineUnits

theorem Output.perm_unitsIn_append (m : Option StateMachine) (o o' : Output) :
    ((o.append o').unitsIn m).Perm (o.unitsIn m ++ o'.unitsIn m) := by
  simp only [unitsIn, append, List.filterMap_append, List.flatMap_append, List.append_assoc]
  refine .append_left _ ?_
  refine (List.perm_append_comm_assoc _ _ _).trans (.append_left _ ?_)
  refine .trans ?_ (List.perm_append_comm_assoc _ _ _)
  refine .append_left _ ?_
  exact List.perm_append_comm_assoc _ _ _

/-- The units of a machine are the header of its controller and those of its members. -/
theorem perm_machineUnits {m : StateMachine} (o : Output) (hf : m.functions = o.functions)
    (ht : m.types = o.types) (hm : o.machines = []) :
    (machineUnits m).Perm (controllerUnit m :: o.unitsIn (some m)) := by
  unfold machineUnits Output.unitsIn
  rw [hf, ht, hm, List.flatMap_nil, List.append_nil]
  exact .cons _ List.perm_append_comm

namespace Turn

/-- The unit belongs to what the turn compiled. -/
def Owes (parent : Option String) (t : Turn) (n : String) : Prop :=
  t.Compiles ∧
    match t.decl with
    | .machine d => n = headerName (StateMachine.controllerOf d.ident) ∨
        ∃ u ∈ d.turns t.table, u.Compiles ∧ n ∈ u.files (some d.ident)
    | _ => n ∈ t.files parent

variable {parent : Option String}

theorem machines_outputs {ts : List Turn} (h : ∀ t ∈ ts, ∀ m, m ∉ t.output.machines) :
    (outputs ts).machines = [] := by
  induction ts with
  | nil => rfl
  | cons t ts ih =>
      show t.output.machines ++ (outputs ts).machines = []
      rw [ih fun u hu => h u (List.mem_cons_of_mem _ hu), List.append_nil]
      exact List.eq_nil_iff_forall_not_mem.mpr (h t List.mem_cons_self)

/-- If turns have units of different names, and no two of them of the same name, their units
together have different names. -/
theorem names_outputs {m : Option StateMachine} {owes : Turn → String → Prop} {ts : List Turn}
    (hturn : ∀ t ∈ ts, ((t.output.unitsIn m).map OutputUnit.name).Nodup ∧
      ∀ n, n ∈ (t.output.unitsIn m).map OutputUnit.name ↔ owes t n)
    (hdisjoint : ts.Pairwise fun t u => ∀ n, owes t n → ¬owes u n) :
    (((outputs ts).unitsIn m).map OutputUnit.name).Nodup ∧
      ∀ n, n ∈ ((outputs ts).unitsIn m).map OutputUnit.name ↔ ∃ t ∈ ts, owes t n := by
  induction ts with
  | nil => exact ⟨.nil, by simp [outputs, Output.unitsIn]⟩
  | cons t ts ih =>
      obtain ⟨ht, hts⟩ := List.pairwise_cons.mp hdisjoint
      obtain ⟨hnodup, hmem⟩ := ih (fun u hu => hturn u (List.mem_cons_of_mem _ hu)) hts
      obtain ⟨hnodup', hmem'⟩ := hturn t List.mem_cons_self
      have hperm := (Output.perm_unitsIn_append m t.output (outputs ts)).map OutputUnit.name
      rw [List.map_append] at hperm
      show (((t.output.append (outputs ts)).unitsIn m).map OutputUnit.name).Nodup ∧ ∀ n, n ∈
        ((t.output.append (outputs ts)).unitsIn m).map OutputUnit.name ↔ _
      refine ⟨hperm.nodup_iff.mpr (List.nodup_append.mpr ⟨hnodup', hnodup, ?_⟩), fun n => ?_⟩
      · rintro n hn n' hn' rfl
        obtain ⟨u, hu, howes⟩ := (hmem n).mp hn'
        exact ht u hu n ((hmem' n).mp hn) howes
      · rw [hperm.mem_iff, List.mem_append, hmem, hmem']
        simp

theorem names_plain {t : Turn} (h : t.Answers parent) (hm : ∀ d, t.decl ≠ .machine d)
    (m : Option StateMachine) :
    ((t.output.unitsIn m).map OutputUnit.name).Nodup ∧
      ∀ n, n ∈ (t.output.unitsIn m).map OutputUnit.name ↔ t.Compiles ∧ n ∈ t.files parent := by
  obtain ⟨decl, table, result⟩ := t
  cases result with
  | error e => exact ⟨.nil, fun n => by simp [output, Output.unitsIn, Compiles]⟩
  | ok c =>
      have hanswer := h c rfl
      have hcompiles : Compiles ⟨decl, table, .ok c⟩ := ⟨c, rfl⟩
      cases decl with
      | machine d => exact absurd rfl (hm d)
      | func d =>
          cases c with
          | type def' => exact hanswer.elim
          | machine c => exact hanswer.elim
          | func f =>
              obtain ⟨machine, rfl, hf⟩ := hanswer
              have hnames := FuncDecl.names_functionUnit m hf
              have hunits : (output ⟨.func d, table, .ok (.func f)⟩).unitsIn m =
                  (functionUnit m f).toList := by
                simp only [output, Output.unitsIn, List.flatMap_nil, List.append_nil,
                  List.filterMap_cons, List.filterMap_nil]
                cases functionUnit m f <;> rfl
              rw [hunits, hnames]
              refine ⟨d.nodup_outputNames _, fun n => ?_⟩
              simp only [hcompiles, true_and, files, Decl.outputFiles, NameSet.mem_names_ofNames]
              exact Iff.rfl
      | type d =>
          cases c with
          | func f => exact hanswer.elim
          | machine c => exact hanswer.elim
          | type def' =>
              obtain ⟨home, hsymbol⟩ := hanswer
              have hnames := TypeDecl.names_typeUnits hsymbol
              have hunits : (output ⟨.type d, table, .ok (.type def')⟩).unitsIn m =
                  typeUnits def' := by
                simp [output, Output.unitsIn]
              rw [hunits]
              refine ⟨hnames.nodup_iff.mpr (d.nodup_outputNames parent), fun n => ?_⟩
              simp only [hcompiles, true_and, files, Decl.outputFiles, NameSet.mem_names_ofNames,
                hnames.mem_iff]
              exact Iff.rfl

theorem not_compiles_machine {t : Turn} {x : String} (h : t.Answers (some x))
    {d : MachineDecl Decl} (hd : t.decl = .machine d) : ¬t.Compiles := by
  rintro ⟨c, hc⟩
  have := h c hc
  rw [hd] at this
  cases c with
  | machine c => cases this.1
  | func f => exact this
  | type def' => exact this

theorem names_member {t : Turn} {x : String} (h : t.Answers (some x)) (m : Option StateMachine) :
    ((t.output.unitsIn m).map OutputUnit.name).Nodup ∧
      ∀ n, n ∈ (t.output.unitsIn m).map OutputUnit.name ↔ t.Compiles ∧ n ∈ t.files (some x) := by
  by_cases hm : ∀ d, t.decl ≠ .machine d
  · exact names_plain h hm m
  · obtain ⟨d, hd⟩ : ∃ d, t.decl = .machine d := by simpa using hm
    have hnot := not_compiles_machine h hd
    obtain ⟨decl, table, result⟩ := t
    cases result with
    | ok c => exact absurd ⟨c, rfl⟩ hnot
    | error e => exact ⟨.nil, fun n => by simp [output, Output.unitsIn, Compiles]⟩

theorem names_machine {t : SymbolTable} (ht : t.Sound) {d : MachineDecl Decl} {c : CompiledMachine}
    (hc : (d.compile t).1 = .ok c) :
    ((machineUnits c.machine).map OutputUnit.name).Nodup ∧
      ∀ n, n ∈ (machineUnits c.machine).map OutputUnit.name ↔
        n = headerName (StateMachine.controllerOf d.ident) ∨
          ∃ u ∈ d.turns t, u.Compiles ∧ n ∈ u.files (some d.ident) := by
  obtain ⟨hgains, -⟩ := d.gains_compile ht hc
  obtain ⟨-, hanswers, haccounted⟩ := d.turns_spec ht
  have hmember := fun u hu => names_member (hanswers u hu) (some c.machine)
  obtain ⟨hnodup, hmem⟩ := names_outputs hmember
    (haccounted.disjoint.imp fun h n hn hn' => h hn.1 hn'.1 n hn.2 hn'.2)
  have hmachines : (outputs (d.turns t)).machines = [] := by
    refine machines_outputs fun u hu => ?_
    intro m hm
    cases hr : u.result with
    | error e => simp [output, hr] at hm
    | ok compiled =>
        have hanswer := hanswers u hu compiled hr
        cases hdecl : u.decl <;> cases compiled <;> simp [hdecl] at hanswer <;>
          simp [output, hr] at hm
  have hperm := (perm_machineUnits (m := c.machine) (outputs (d.turns t)) hgains.functions
    hgains.types hmachines).map OutputUnit.name
  have hheader :
      (controllerUnit c.machine).name = headerName (StateMachine.controllerOf d.ident) := by
    show headerName (StateMachine.controllerOf c.machine.ident) = _
    rw [hgains.ident]
    rfl
  rw [List.map_cons, hheader] at hperm
  refine ⟨hperm.nodup_iff.mpr (List.nodup_cons.mpr ⟨?_, hnodup⟩), fun n => ?_⟩
  · -- The header was claimed before the first member.
    intro hn
    obtain ⟨u, hu, hcompiles, hfile⟩ := (hmem _).mp hn
    exact haccounted.unclaimed u hu hcompiles _ hfile
      (NameSet.mem_names_ofNames.mpr List.mem_cons_self)
  · rw [hperm.mem_iff, List.mem_cons, hmem]

theorem names_turn {t : Turn} (ht : t.table.Sound) (h : t.Answers none) :
    ((t.output.unitsIn none).map OutputUnit.name).Nodup ∧
      ∀ n, n ∈ (t.output.unitsIn none).map OutputUnit.name ↔ t.Owes none n := by
  by_cases hm : ∀ d, t.decl ≠ .machine d
  · obtain ⟨hnodup, hmem⟩ := names_plain h hm none
    refine ⟨hnodup, fun n => (hmem n).trans ?_⟩
    unfold Owes
    cases hd : t.decl with
    | machine d => exact absurd hd (hm d)
    | func d => exact Iff.rfl
    | type d => exact Iff.rfl
  · obtain ⟨d, hd⟩ : ∃ d, t.decl = .machine d := by simpa using hm
    obtain ⟨decl, table, result⟩ := t
    dsimp only at hd ht
    subst hd
    cases result with
    | error e => exact ⟨.nil, fun n => by simp [output, Output.unitsIn, Owes, Compiles]⟩
    | ok compiled =>
        have hanswer := h compiled rfl
        cases compiled with
        | func f => exact hanswer.elim
        | type def' => exact hanswer.elim
        | machine c =>
            obtain ⟨hnodup, hmem⟩ := names_machine ht hanswer.2
            have hunits : (output ⟨.machine d, table, .ok (.machine c)⟩).unitsIn none =
                machineUnits c.machine := by simp [output, Output.unitsIn]
            have hcompiles : Compiles ⟨.machine d, table, .ok (.machine c)⟩ := ⟨_, rfl⟩
            rw [hunits]
            refine ⟨hnodup, fun n => (hmem n).trans ?_⟩
            simp only [Owes, hcompiles, true_and]

end Turn

/-! ### Declarations -/

namespace Decl

theorem mem_outputNamesAll {parent : Option String} {ds : List Decl} {n : String} :
    n ∈ outputNamesAll parent ds ↔ ∃ d ∈ ds, n ∈ d.outputNames parent := by
  induction ds with
  | nil => simp [outputNamesAll]
  | cons d ds ih => simp [outputNamesAll, ih]

theorem mem_outputFiles_machine {d : MachineDecl Decl} {n : String} :
    n ∈ ((Decl.machine d).outputFiles none).names ↔
      n = headerName (StateMachine.controllerOf d.ident) ∨
        ∃ member ∈ d.members, n ∈ (member.outputFiles (some d.ident)).names := by
  rw [outputFiles, NameSet.mem_names_ofNames, outputNames, List.mem_cons, mem_outputNamesAll]
  simp only [outputFiles, NameSet.mem_names_ofNames]

theorem mem_outputFilesAll {ds : List Decl} {n : String} :
    n ∈ (outputFilesAll ds).names ↔ ∃ d ∈ ds, n ∈ (d.outputFiles none).names := by
  rw [outputFilesAll, NameSet.mem_names_ofNames, mem_outputNamesAll]
  simp only [outputFiles, NameSet.mem_names_ofNames]

end Decl

namespace Turn

/-- What a turn owes its declaration owes. -/
theorem Owes.files {t : Turn} (ht : t.table.Sound) {n : String} (h : t.Owes none n) :
    n ∈ t.files none := by
  obtain ⟨-, h⟩ := h
  cases hd : t.decl with
  | func d =>
      rw [hd] at h
      exact h
  | type d =>
      rw [hd] at h
      exact h
  | machine d =>
      rw [hd] at h
      rw [Turn.files, hd, Decl.mem_outputFiles_machine]
      rcases h with h | ⟨u, hu, -, hn⟩
      · exact .inl h
      · refine .inr ⟨u.decl, ?_, hn⟩
        rw [← (d.turns_spec ht).1]
        exact List.mem_map_of_mem hu

/-! ### Turns without errors -/

theorem hasErrors_outputs {ts : List Turn} :
    (outputs ts).hasErrors = false ↔ ∀ t ∈ ts, t.output.hasErrors = false := by
  induction ts with
  | nil => simp [outputs, Output.hasErrors]
  | cons t ts ih =>
      have happend :
          (outputs (t :: ts)).hasErrors = (t.output.hasErrors || (outputs ts).hasErrors) :=
        List.any_append
      rw [happend, Bool.or_eq_false_iff, ih, List.forall_mem_cons]

theorem compiles_of_hasErrors {t : Turn} (h : t.output.hasErrors = false) : t.Compiles := by
  obtain ⟨decl, table, result⟩ := t
  cases result with
  | ok c => exact ⟨c, rfl⟩
  | error e => cases h

theorem errors_of_hasErrors {t : Turn} {c : CompiledMachine} (hc : t.result = .ok (.machine c))
    (h : t.output.hasErrors = false) : c.errors = [] := by
  unfold output at h
  rw [hc] at h
  simp only [Output.hasErrors, List.any_append, Bool.or_eq_false_iff, List.any_map] at h
  rw [List.eq_nil_iff_forall_not_mem]
  intro e he
  have := List.any_eq_false.mp h.1 e he
  simp [Diagnostic.ofError] at this

theorem owes_of_hasErrors {t : Turn} (ht : t.table.Sound) (hanswers : t.Answers none)
    (h : t.output.hasErrors = false) {n : String} (hn : n ∈ t.files none) : t.Owes none n := by
  have hcompiles := compiles_of_hasErrors h
  refine ⟨hcompiles, ?_⟩
  cases hd : t.decl with
  | func d => exact hn
  | type d => exact hn
  | machine d =>
      obtain ⟨compiled, hr⟩ := hcompiles
      have hanswer := hanswers compiled hr
      rw [hd] at hanswer
      cases compiled with
      | func f => exact hanswer.elim
      | type def' => exact hanswer.elim
      | machine c =>
          obtain ⟨-, herrors⟩ := d.gains_compile ht hanswer.2
          rw [errors_of_hasErrors hr h] at herrors
          rw [Turn.files, hd, Decl.mem_outputFiles_machine] at hn
          rcases hn with hn | ⟨member, hmember, hn⟩
          · exact .inl hn
          · rw [← (d.turns_spec ht).1] at hmember
            obtain ⟨u, hu, rfl⟩ := List.mem_map.mp hmember
            exact .inr ⟨u, hu, compiles_of_failures herrors.symm u hu, hn⟩

end Turn

/-! ### Sessions -/

/-- The units of a list of declarations have different names, and they are those that its turns
owe. -/
theorem Session.names_unsortedUnits {s : Session} (hs : s.Sound) (ds : List Decl) :
    ((Turn.outputs (s.turns ds)).unsortedUnits.map OutputUnit.name).Nodup ∧
      ∀ n, n ∈ (Turn.outputs (s.turns ds)).unsortedUnits.map OutputUnit.name ↔
        ∃ t ∈ s.turns ds, t.Owes none n := by
  obtain ⟨-, htables, hanswers, haccounted⟩ := turns_spec hs ds
  have hdisjoint : (s.turns ds).Pairwise fun t u => ∀ n, t.Owes none n → ¬u.Owes none n := by
    refine List.pairwise_iff_forall_sublist.mpr fun {t u} htu n hn hn' => ?_
    have ht := htables t (htu.subset List.mem_cons_self)
    have hu := htables u (htu.subset (List.mem_cons_of_mem _ List.mem_cons_self))
    exact List.pairwise_iff_forall_sublist.mp haccounted.disjoint htu hn.1 hn'.1 n
      (hn.files ht) (hn'.files hu)
  exact Turn.names_outputs (m := none)
    (fun t ht => Turn.names_turn (htables t ht) (hanswers t ht)) hdisjoint

/-- What is known of the names of the units in every sound session. -/
theorem Session.names_turns {s : Session} (hs : s.Sound) (ds : List Decl) :
    ((Turn.outputs (s.turns ds)).units.map OutputUnit.name).Pairwise (· < ·) ∧
      (∀ n, n ∈ (Turn.outputs (s.turns ds)).units.map OutputUnit.name ↔
        ∃ t ∈ s.turns ds, t.Owes none n) ∧
      (∀ n ∈ (Turn.outputs (s.turns ds)).units.map OutputUnit.name,
        n ∈ (Decl.outputFilesAll ds).names) ∧
      ((Turn.outputs (s.turns ds)).hasErrors = false →
        (Turn.outputs (s.turns ds)).units.map OutputUnit.name = (Decl.outputFilesAll ds).names) := by
  obtain ⟨hdecls, htables, hanswers, -⟩ := turns_spec hs ds
  obtain ⟨hnodup, hmem⟩ := names_unsortedUnits hs ds
  have hunits : ∀ n, n ∈ (Turn.outputs (s.turns ds)).units.map OutputUnit.name ↔
      ∃ t ∈ s.turns ds, t.Owes none n := by
    intro n
    rw [← hmem]
    exact ((perm_sortByName _).map OutputUnit.name).mem_iff
  have hsorted : ((Turn.outputs (s.turns ds)).units.map OutputUnit.name).Pairwise (· < ·) :=
    pairwise_names_sortByName hnodup
  have hsubset : ∀ n ∈ (Turn.outputs (s.turns ds)).units.map OutputUnit.name,
      n ∈ (Decl.outputFilesAll ds).names := by
    intro n hn
    obtain ⟨t, ht, howes⟩ := (hunits n).mp hn
    have hdecl : t.decl ∈ (s.turns ds).map Turn.decl := List.mem_map_of_mem ht
    rw [hdecls] at hdecl
    exact Decl.mem_outputFilesAll.mpr ⟨t.decl, hdecl, howes.files (htables t ht)⟩
  refine ⟨hsorted, hunits, hsubset, fun herrors => ?_⟩
  refine NameMap.eq_of_pairwise_lt hsorted (NameMap.names_pairwise _) fun n => ⟨hsubset n, ?_⟩
  intro hn
  obtain ⟨d, hd, hn⟩ := Decl.mem_outputFilesAll.mp hn
  rw [← hdecls] at hd
  obtain ⟨t, ht, rfl⟩ := List.mem_map.mp hd
  exact (hunits n).mpr ⟨t, ht, Turn.owes_of_hasErrors (htables t ht) (hanswers t ht)
    (Turn.hasErrors_outputs.mp herrors t ht) hn⟩

/-- The names of the units of a list of declarations: no two are the same, they come in order, and
they are those that the declarations owe that compiled. So none is new to the declarations, and if
nothing failed none is missing. -/
theorem Session.names_units {config : Config} {s : Session} (hs : Reached config s)
    (ds : List Decl) :
    ∃ s' out, s.compile ds = .ok (s', out) ∧
      (s.turns ds).map Turn.decl = ds ∧ out = Turn.outputs (s.turns ds) ∧
      (∀ t ∈ s.turns ds, ∀ d c, t.decl = .machine d → t.result = .ok (.machine c) →
        (d.turns t.table).map Turn.decl = d.members ∧
          c.machine.functions = (Turn.outputs (d.turns t.table)).functions ∧
          c.machine.types = (Turn.outputs (d.turns t.table)).types) ∧
      (out.units.map OutputUnit.name).Pairwise (· < ·) ∧
      (∀ n, n ∈ out.units.map OutputUnit.name ↔ ∃ t ∈ s.turns ds, t.Owes none n) ∧
      (∀ n ∈ out.units.map OutputUnit.name, n ∈ (Decl.outputFilesAll ds).names) ∧
      (out.hasErrors = false → out.units.map OutputUnit.name = (Decl.outputFilesAll ds).names) := by
  obtain ⟨s', hcompile, -⟩ := compile_eq hs.sound ds
  obtain ⟨hdecls, htables, hanswers, -⟩ := turns_spec hs.sound ds
  refine ⟨s', _, hcompile, hdecls, rfl, ?_, names_turns hs.sound ds⟩
  intro t ht d c hd hc
  have hanswer := hanswers t ht _ hc
  rw [hd] at hanswer
  obtain ⟨hgains, -⟩ := d.gains_compile (htables t ht) hanswer.2
  exact ⟨(d.turns_spec (htables t ht)).1, hgains.functions, hgains.types⟩

/-- A machine with a member of the same unit as its controller, after a function of its own name. -/
theorem Session.names_units_prelude : ∃ s₀, Session.start .prelude = .ok s₀ ∧
    ∃ s' out, s₀.compile [
        .func { returnType := { ident := "int" }, ident := "L1_next" },
        .machine { ident := "L1", members := [
          .type { ident := "Controller" }, .type { ident := "State" }] }] = .ok (s', out) ∧
      (out.units.map OutputUnit.name).Pairwise (· < ·) := by
  obtain ⟨s₀, h⟩ : ∃ s₀, Session.start .prelude = .ok s₀ := ⟨_, rfl⟩
  obtain ⟨s', out, hc, -, -, -, hsorted, -⟩ := names_units (.start h) _
  exact ⟨s₀, h, s', out, hc, hsorted⟩

end Coherence
