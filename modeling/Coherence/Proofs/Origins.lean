import Coherence.Proofs.Accounts
import Coherence.Proofs.Globals
import Coherence.Proofs.Includes
/-!
# What units are generated from

An `Origin` is a function or a type, of a machine or of none, or the controller of a machine. Each unit of
an output has one that spells its name. Over a whole run nothing is generated twice from one origin, and in
one output no two units have the same name. Still two outputs of a run may share the name of a unit; then it
is spelled by two different origins (`Session.compileAll_origins`), such as an enumeration and a function of
its name (`Session.compileAll_origins_shared`).
-/

namespace Coherence

open Emit

/-- What a unit is generated from. Functions and types belong to a machine or to none. -/
inductive Origin
  | func (machine : Option String) (ident : String)
  | type (machine : Option String) (ident : String)
  | controller (machine : String)
deriving DecidableEq

namespace Origin

/-- The names of the units that may be generated. -/
def unitNames : Origin → List String
  | func machine ident => [sourceName (qualify machine ident)]
  | type machine ident => [headerName (qualify machine ident), sourceName (qualify machine ident)]
  | controller machine => [headerName (StateMachine.controllerOf machine)]

def owner : Origin → Option String
  | func machine _ => machine
  | type machine _ => machine
  | controller machine => some machine

end Origin

def Func.origin (f : Func) : Origin := .func f.machine f.ident

def TypeDef.origin (τ : TypeDef) : Origin := .type τ.symbol.machine τ.symbol.ident

def StateMachine.origins (m : StateMachine) : List Origin :=
  .controller m.ident :: (m.types.map TypeDef.origin ++ m.functions.map Func.origin)

def Output.origins (o : Output) : List Origin :=
  o.types.map TypeDef.origin ++ o.functions.map Func.origin ++ o.machines.flatMap StateMachine.origins

/-! ### Functions and types of one owner -/

/-- The functions and the types belong to the same machine, or to none, and each has a name of its own
among its kind. -/
structure Belong (owner : Option String) (functions : List Func) (types : List TypeDef) : Prop where
  functionOwner : ∀ f ∈ functions, f.machine = owner
  typeOwner : ∀ τ ∈ types, τ.symbol.machine = owner ∧ τ.symbol.spelling = none
  functionNames : (functions.map Func.ident).Nodup
  typeNames : (types.map fun τ => τ.symbol.ident).Nodup

namespace Belong

variable {owner : Option String} {functions : List Func} {types : List TypeDef}

theorem origins_eq (h : Belong owner functions types) :
    types.map TypeDef.origin ++ functions.map Func.origin =
      (types.map fun τ => τ.symbol.ident).map (.type owner) ++
        (functions.map Func.ident).map (.func owner) := by
  have htypes : types.map TypeDef.origin = types.map fun τ => .type owner τ.symbol.ident :=
    List.map_congr_left fun τ hτ => by rw [TypeDef.origin, (h.typeOwner τ hτ).1]
  have hfunctions : functions.map Func.origin = functions.map fun f => .func owner f.ident :=
    List.map_congr_left fun f hf => by rw [Func.origin, h.functionOwner f hf]
  rw [htypes, hfunctions, List.map_map, List.map_map]
  rfl

theorem nodup_origins (h : Belong owner functions types) :
    (types.map TypeDef.origin ++ functions.map Func.origin).Nodup := by
  rw [h.origins_eq]
  refine List.nodup_append.mpr ⟨?_, ?_, ?_⟩
  · exact h.typeNames.map fun _ _ heq => (Origin.type.inj heq).2
  · exact h.functionNames.map fun _ _ heq => (Origin.func.inj heq).2
  · intro x hx y hy heq
    obtain ⟨_, -, rfl⟩ := List.mem_map.mp hx
    obtain ⟨_, -, rfl⟩ := List.mem_map.mp hy
    cases heq

theorem owner_origins (h : Belong owner functions types) :
    ∀ x ∈ types.map TypeDef.origin ++ functions.map Func.origin,
      x.owner = owner ∧ ∀ m, x ≠ .controller m := by
  rw [h.origins_eq]
  intro x hx
  rcases List.mem_append.mp hx with hx | hx <;> obtain ⟨_, -, rfl⟩ := List.mem_map.mp hx
  · exact ⟨rfl, nofun⟩
  · exact ⟨rfl, nofun⟩

theorem sublist {functions' : List Func} {types' : List TypeDef} (h : Belong owner functions types)
    (hf : functions'.Sublist functions) (ht : types'.Sublist types) : Belong owner functions' types' where
  functionOwner := fun f hmem => h.functionOwner f (hf.subset hmem)
  typeOwner := fun τ hmem => h.typeOwner τ (ht.subset hmem)
  functionNames := h.functionNames.sublist (hf.map _)
  typeNames := h.typeNames.sublist (ht.map _)

end Belong

/-! ### Outputs -/

/-- The units of an output can be told apart by what they are generated from. -/
structure Output.Orderly (o : Output) : Prop where
  top : Belong none o.functions o.types
  machine : ∀ m ∈ o.machines, Belong (some m.ident) m.functions m.types
  machineNames : (o.machines.map StateMachine.ident).Nodup

namespace StateMachine

variable {m : StateMachine}

theorem nodup_origins (h : Belong (some m.ident) m.functions m.types) : m.origins.Nodup := by
  refine List.nodup_cons.mpr ⟨fun hmem => ?_, h.nodup_origins⟩
  exact (h.owner_origins _ hmem).2 _ rfl

theorem owner_origins (h : Belong (some m.ident) m.functions m.types) :
    ∀ x ∈ m.origins, x.owner = some m.ident := by
  intro x hx
  rcases List.mem_cons.mp hx with rfl | hx
  · rfl
  · exact (h.owner_origins x hx).1

end StateMachine

namespace Output.Orderly

variable {o : Output}

theorem nodup_origins (h : o.Orderly) : o.origins.Nodup := by
  have hmachines : (o.machines.flatMap StateMachine.origins).Nodup := by
    refine List.nodup_flatMap.mpr ⟨fun m hm => StateMachine.nodup_origins (h.machine m hm), ?_⟩
    refine (List.pairwise_map.mp h.machineNames).imp_of_mem fun {m m'} hm hm' hne x hx hx' => hne ?_
    have howner := StateMachine.owner_origins (h.machine m hm) x hx
    have howner' := StateMachine.owner_origins (h.machine m' hm') x hx'
    exact Option.some.inj (howner.symm.trans howner')
  refine List.nodup_append.mpr ⟨h.top.nodup_origins, hmachines, ?_⟩
  -- What belongs to no machine is no part of one.
  rintro x hx y hy rfl
  obtain ⟨m, hm, hx'⟩ := List.mem_flatMap.mp hy
  have hnone := (h.top.owner_origins x hx).1
  rw [StateMachine.owner_origins (h.machine m hm) x hx'] at hnone
  cases hnone

end Output.Orderly

namespace Output

theorem join_eq (outputs : List Output) : (join outputs).functions = outputs.flatMap Output.functions ∧
    (join outputs).types = outputs.flatMap Output.types ∧
      (join outputs).machines = outputs.flatMap Output.machines := by
  induction outputs with
  | nil => exact ⟨rfl, rfl, rfl⟩
  | cons o outputs ih =>
      obtain ⟨hfunctions, htypes, hmachines⟩ := ih
      exact ⟨congrArg (o.functions ++ ·) hfunctions, congrArg (o.types ++ ·) htypes,
        congrArg (o.machines ++ ·) hmachines⟩

theorem perm_origins_join (outputs : List Output) :
    (join outputs).origins.Perm (outputs.flatMap origins) := by
  obtain ⟨hfunctions, htypes, hmachines⟩ := join_eq outputs
  unfold origins
  rw [hfunctions, htypes, hmachines, List.map_flatMap, List.map_flatMap, List.flatMap_assoc]
  refine .trans (.append_right _ (List.flatMap_append_perm outputs _ _)) ?_
  exact List.flatMap_append_perm outputs _ _

/-- One of several outputs can be told apart if they can together. -/
theorem Orderly.of_mem {o : Output} {outputs : List Output} (h : (join outputs).Orderly)
    (ho : o ∈ outputs) : o.Orderly := by
  obtain ⟨hfunctions, htypes, hmachines⟩ := join_eq outputs
  have hsub : ∀ {α : Type} (part : Output → List α), (part o).Sublist (outputs.flatMap part) := by
    intro α part
    rw [List.flatMap_def]
    exact List.sublist_flatten_of_mem (List.mem_map_of_mem ho)
  have hmachine := hsub Output.machines
  rw [← hmachines] at hmachine
  refine ⟨h.top.sublist ?_ ?_, fun m hm => h.machine m (hmachine.subset hm),
    h.machineNames.sublist (hmachine.map _)⟩
  · rw [hfunctions]
    exact hsub _
  · rw [htypes]
    exact hsub _

end Output

theorem Func.mem_unitNames {f : Func} {m : Option StateMachine} {u : OutputUnit}
    (h : functionUnit m f = some u) : u.name ∈ f.origin.unitNames := by
  obtain ⟨name, definition, hname, -, rfl⟩ := functionUnit_eq_some.mp h
  unfold Func.outputFile at hname
  split at hname
  · cases hname
  · cases hname
    exact List.mem_singleton_self _

theorem TypeDef.mem_unitNames {τ : TypeDef} (hτ : τ.symbol.spelling = none) {u : OutputUnit}
    (h : u ∈ typeUnits τ) : u.name ∈ τ.origin.unitNames := by
  have hspelling : τ.symbol.cIdent = qualify τ.symbol.machine τ.symbol.ident := by
    rw [TypeSymbol.cIdent, hτ]
    rfl
  unfold typeUnits at h
  rw [hspelling] at h
  split at h
  · cases h
  · split at h
    · rcases List.mem_cons.mp h with rfl | h
      · exact List.mem_cons_of_mem _ (List.mem_singleton_self _)
      · rw [List.mem_singleton.mp h]
        exact List.mem_cons_self
    · rw [List.mem_singleton.mp h]
      exact List.mem_cons_self

/-- Each unit of an output has an origin that spells its name. -/
theorem Output.Orderly.exists_origin {o : Output} (h : o.Orderly) {n : String}
    (hn : n ∈ o.units.map OutputUnit.name) : ∃ x ∈ o.origins, n ∈ x.unitNames := by
  obtain ⟨u, hu, rfl⟩ := List.mem_map.mp hn
  have hu := (perm_sortByName _).mem_iff.mp hu
  unfold unsortedUnits at hu
  rcases List.mem_append.mp hu with hu | hu
  · rcases List.mem_append.mp hu with hu | hu
    · obtain ⟨f, hf, hu⟩ := List.mem_filterMap.mp hu
      exact ⟨f.origin, by simp [origins, hf, List.mem_map_of_mem], Func.mem_unitNames hu⟩
    · obtain ⟨τ, hτ, hu⟩ := List.mem_flatMap.mp hu
      refine ⟨τ.origin, by simp [origins, hτ, List.mem_map_of_mem], ?_⟩
      exact TypeDef.mem_unitNames (h.top.typeOwner τ hτ).2 hu
  · obtain ⟨m, hm, hu⟩ := List.mem_flatMap.mp hu
    have hmember : ∀ x ∈ m.origins, x ∈ o.origins := fun x hx =>
      List.mem_append_right _ (List.mem_flatMap.mpr ⟨m, hm, hx⟩)
    unfold machineUnits at hu
    rcases List.mem_append.mp hu with hu | hu
    · rcases List.mem_cons.mp hu with rfl | hu
      · exact ⟨_, hmember _ List.mem_cons_self, List.mem_singleton_self _⟩
      · obtain ⟨τ, hτ, hu⟩ := List.mem_flatMap.mp hu
        refine ⟨τ.origin, hmember _ ?_, TypeDef.mem_unitNames ((h.machine m hm).typeOwner τ hτ).2 hu⟩
        exact List.mem_cons_of_mem _ (List.mem_append_left _ (List.mem_map_of_mem hτ))
    · obtain ⟨f, hf, hu⟩ := List.mem_filterMap.mp hu
      refine ⟨f.origin, hmember _ ?_, Func.mem_unitNames hu⟩
      exact List.mem_cons_of_mem _ (List.mem_append_right _ (List.mem_map_of_mem hf))

/-! ### Types that are registered together -/

theorem Decl.nodup_symbols_predeclareAll (machine : Option String) (t : SymbolTable) (ds : List Decl) :
    ((Pending.symbols (predeclareAll t machine ds).2).map TypeSymbol.ident).Nodup := by
  have hsettled : ∀ σ ∈ Pending.symbols (predeclareAll t machine ds).2,
      σ.home = t.top.id ∧ σ.machine = machine := by
    intro σ hσ
    obtain ⟨p, hp, hs⟩ := List.mem_filterMap.mp hσ
    have hp := settledIn_predeclareAll machine t ds p hp
    refine ⟨Pending.home_of_symbol? hp hs, ?_⟩
    cases p with
    | func d => cases hs
    | machine d => cases hs
    | type d state =>
        cases state <;> cases hs
        exact congrArg TypeSymbol.machine hp
  refine List.pairwise_map.mpr ((distinct_symbols_predeclareAll machine t ds).imp_of_mem ?_)
  intro σ τ hσ hτ hkey hident
  obtain ⟨hhome, hmachine⟩ := hsettled σ hσ
  obtain ⟨hhome', hmachine'⟩ := hsettled τ hτ
  refine hkey ?_
  rw [TypeSymbol.key, TypeSymbol.key, hhome, hhome', hmachine, hmachine', hident]

theorem MachineDecl.belong_compile {t : SymbolTable} (h : t.Sound) {d : MachineDecl Decl}
    {c : CompiledMachine} (hc : (d.compile t).1 = .ok c) :
    Belong (some c.machine.ident) c.machine.functions c.machine.types := by
  obtain ⟨hgains, -⟩ := d.gains_compile h hc
  obtain ⟨-, hanswers, -⟩ := d.turns_spec h
  obtain ⟨c', u, hc', -, hvalid, -⟩ := d.compile_succeeds h
  rw [hc'] at hc
  cases hc
  obtain ⟨hfunctions, htypes⟩ := Turn.machine_outputs hanswers
  have hident : c.machine.ident = d.ident := hgains.ident
  refine ⟨?_, ?_, hvalid.distinct, ?_⟩
  · rw [hgains.functions, hident]
    exact hfunctions
  · rw [hgains.types, hident]
    exact htypes
  · rw [hgains.types]
    have hsub := (MemberRun.types_turns (sound_start h d)).map TypeSymbol.ident
    rw [List.map_map] at hsub
    exact (Decl.nodup_symbols_predeclareAll _ _ _).sublist hsub

/-! ### Sessions -/

namespace Session

variable {s s' : Session} {ds : List Decl} {out : Output} {config : Config}

/-- The types that a list compiles have different names, which the outermost frame did not bind before. -/
theorem types_compile (hs : s.Sound) (hc : s.compile ds = .ok (s', out)) :
    (out.types.map fun τ => τ.symbol.ident).Nodup ∧
      ∀ τ ∈ out.types, s.table.top.find? τ.symbol.ident .type = none := by
  have hsub : (out.types.map TypeDef.symbol).Sublist
      (Pending.symbols (Decl.predeclareAll s.table none ds).2) := by
    rw [output_of_compile hs hc]
    exact DeclRun.types_turns (sound_begin hs ds)
  constructor
  · have hidents := hsub.map TypeSymbol.ident
    rw [List.map_map] at hidents
    exact (Decl.nodup_symbols_predeclareAll none s.table ds).sublist hidents
  · intro τ hτ
    exact Decl.find?_of_mem_symbols none s.table ds (hsub.subset (List.mem_map_of_mem hτ))

/-- No name is that of types in two outputs, nor of a type bound before. -/
theorem types_compileAll {before outputs : List Output} {batches : List (List Decl)}
    (h : s.Globals config before) (hs : Reached config s)
    (hc : s.compileAll batches = .ok (s', outputs)) :
    ((outputs.flatMap Output.types).map fun τ => τ.symbol.ident).Nodup ∧
      ∀ τ ∈ outputs.flatMap Output.types, s.table.top.find? τ.symbol.ident .type = none := by
  induction batches generalizing s before outputs with
  | nil =>
      cases hc
      exact ⟨List.nodup_nil, List.forall_mem_nil _⟩
  | cons ds batches ih =>
      obtain ⟨s₁, out, outs, hc₁, hrest, rfl⟩ := compileAll_cons hc
      have hglobals := h.compile hs.sound hc₁
      obtain ⟨hnodup, hfree⟩ := types_compile hs.sound hc₁
      obtain ⟨hnodup', hfree'⟩ := ih hglobals (hs.compile hc₁) hrest
      obtain ⟨types, hext, -⟩ := extends_compile hs.sound hc₁
      rw [List.flatMap_cons, List.map_append]
      refine ⟨List.nodup_append.mpr ⟨hnodup, hnodup', ?_⟩, ?_⟩
      · -- A type of this list is bound when the next one starts.
        intro name hname other hother heq
        obtain ⟨τ, hτ, rfl⟩ := List.mem_map.mp hname
        obtain ⟨σ, hσ, rfl⟩ := List.mem_map.mp hother
        have hbound := hglobals.types out (by simp) τ hτ
        rw [heq, hfree' σ hσ] at hbound
        cases hbound
      · intro τ hτ
        rcases List.mem_append.mp hτ with hτ | hτ
        · exact hfree τ hτ
        · cases hfound : s.table.top.find? τ.symbol.ident .type with
          | none => rfl
          | some symbol =>
              have hstill := hext.find? h.distinct hfound
              rw [hfree' τ hτ] at hstill
              cases hstill

theorem belong_compile (hs : s.Sound) (hc : s.compile ds = .ok (s', out)) :
    (∀ f ∈ out.functions, f.machine = none) ∧
      (∀ τ ∈ out.types, τ.symbol.machine = none ∧ τ.symbol.spelling = none) ∧
      ∀ m ∈ out.machines, Belong (some m.ident) m.functions m.types := by
  obtain ⟨-, htables, hanswers, -⟩ := turns_spec hs ds
  obtain ⟨hfunctions, htypes⟩ := Turn.machine_outputs hanswers
  rw [output_of_compile hs hc]
  refine ⟨hfunctions, htypes, fun m hm => ?_⟩
  obtain ⟨t, ht, d, c, -, -, rfl, hd⟩ := Turn.exists_of_mem_machines hm hanswers
  exact MachineDecl.belong_compile (htables t ht) hd

/-- What holds of the output of each list holds of the outputs of all lists. -/
theorem forall_outputs {P : Output → Prop}
    (hP : ∀ {s s' ds out}, Session.Sound s → s.compile ds = .ok (s', out) → P out)
    {batches : List (List Decl)} {outputs : List Output} (hs : Reached config s)
    (hc : s.compileAll batches = .ok (s', outputs)) : ∀ o ∈ outputs, P o := by
  induction batches generalizing s outputs with
  | nil =>
      cases hc
      exact List.forall_mem_nil P
  | cons ds batches ih =>
      obtain ⟨s₁, out, outs, hc₁, hrest, rfl⟩ := compileAll_cons hc
      exact List.forall_mem_cons.mpr ⟨hP hs.sound hc₁, ih (hs.compile hc₁) hrest⟩

/-- What all lists compile into can be told apart. -/
theorem orderly_compileAll {s₀ : Session} {batches : List (List Decl)} {outputs : List Output}
    (h₀ : Session.start config = .ok s₀) (hc : s₀.compileAll batches = .ok (s, outputs)) :
    (Output.join outputs).Orderly := by
  have hreached : Reached config s := (Reached.start h₀).compileAll hc
  have hglobals : s.Globals config outputs := (globals_start h₀).compileAll (.start h₀) hc
  have hbelong := forall_outputs (fun hs hc => belong_compile hs hc) (.start h₀) hc
  have hkeyed : ∀ e ∈ s.table.top.symbols, e.1 = e.2.key :=
    hreached.sound.table.keyed _ List.mem_cons_self
  have hnames := hglobals.distinct.nodup_functions hkeyed
  rw [hglobals.functions, List.map_reverse, List.nodup_reverse] at hnames
  obtain ⟨hfunctions, htypes, hmachines⟩ := Output.join_eq outputs
  refine ⟨⟨?_, ?_, ?_, ?_⟩, ?_, ?_⟩
  · rw [hfunctions]
    intro f hf
    obtain ⟨o, ho, hf⟩ := List.mem_flatMap.mp hf
    exact (hbelong o ho).1 f hf
  · rw [htypes]
    intro τ hτ
    obtain ⟨o, ho, hτ⟩ := List.mem_flatMap.mp hτ
    exact (hbelong o ho).2.1 τ hτ
  · rw [hfunctions]
    exact hnames
  · rw [htypes]
    exact (types_compileAll (globals_start h₀) (.start h₀) hc).1
  · rw [hmachines]
    intro m hm
    obtain ⟨o, ho, hm⟩ := List.mem_flatMap.mp hm
    exact (hbelong o ho).2.2 m hm
  · rw [hmachines, ← hglobals.machines]
    exact hreached.sound.registry.distinct

/-- Whatever lists are compiled one after another, nothing is generated twice from one origin, each unit has
an origin that spells its name, and no two units of one output have the same name: in one list a declaration
does not compile if it owes a unit that one before it generates. Two outputs share the name of a unit only if
two different origins spell it. -/
theorem compileAll_origins {s₀ : Session} (h₀ : Session.start config = .ok s₀)
    (batches : List (List Decl)) :
    ∃ s outputs, s₀.compileAll batches = .ok (s, outputs) ∧ outputs.length = batches.length ∧
      (outputs.flatMap Output.origins).Nodup ∧
      (∀ o ∈ outputs, (o.units.map OutputUnit.name).Nodup ∧
        ∀ n ∈ o.units.map OutputUnit.name, ∃ x ∈ o.origins, n ∈ x.unitNames) ∧
      (outputs.Pairwise fun o o' => ∀ n ∈ o.units.map OutputUnit.name,
        n ∈ o'.units.map OutputUnit.name →
          ∃ x ∈ o.origins, ∃ y ∈ o'.origins, x ≠ y ∧ n ∈ x.unitNames ∧ n ∈ y.unitNames) ∧
      ∀ ds before u after, s.turns ds = before ++ u :: after →
        ∀ w ∈ before, w.Compiles → ∀ n ∈ w.files none, n ∈ u.files none → ¬u.Compiles := by
  obtain ⟨s, outputs, hc, hsound, hlen, -⟩ := (sound_start h₀).compileAll batches
  have horderly := orderly_compileAll h₀ hc
  have hnodup : (outputs.flatMap Output.origins).Nodup :=
    (Output.perm_origins_join outputs).nodup_iff.mp horderly.nodup_origins
  have horigin : ∀ o ∈ outputs, ∀ n ∈ o.units.map OutputUnit.name,
      ∃ x ∈ o.origins, n ∈ x.unitNames := fun o ho n hn => (horderly.of_mem ho).exists_origin hn
  have hnames : ∀ o ∈ outputs, (o.units.map OutputUnit.name).Nodup := by
    refine forall_outputs (fun hs hc => ?_) (.start h₀) hc
    rw [output_of_compile hs hc]
    exact ((perm_sortByName _).map OutputUnit.name).nodup_iff.mpr (names_unsortedUnits hs _).1
  refine ⟨s, outputs, hc, hlen, hnodup, fun o ho => ⟨hnames o ho, horigin o ho⟩, ?_, ?_⟩
  · refine (List.nodup_flatMap.mp hnodup).2.imp_of_mem fun {o o'} ho ho' hdisjoint n hn hn' => ?_
    obtain ⟨x, hx, hnx⟩ := horigin o ho n hn
    obtain ⟨y, hy, hny⟩ := horigin o' ho' n hn'
    exact ⟨x, hx, y, hy, fun heq => hdisjoint hx (heq ▸ hy), hnx, hny⟩
  · intro ds before u after hu w hw hcw n hnw hnu hcu
    have hpairs := (turns_spec hsound ds).2.2.2.disjoint
    rw [hu] at hpairs
    exact (List.pairwise_append.mp hpairs).2.2 w hw u List.mem_cons_self hcw hcu n hnw hnu

/-- An enumeration, and a function of its name with a body. -/
def sharedName : List (List Decl) := [
  [.type { ident := "State", body := .enumeration ["I", "M"] }],
  [.func { returnType := { ident := "void" }, ident := "State", statements := some [.ret none {}] }]]

/-- Compiled one after another both generate the same unit, from different origins, while in one list the
function is refused. -/
theorem compileAll_origins_shared : ∃ s₀, Session.start .prelude = .ok s₀ ∧
    ∃ s o o', s₀.compileAll sharedName = .ok (s, [o, o']) ∧
      o.origins = [.type none "State"] ∧ o'.origins = [.func none "State"] ∧
      ([o, o'].flatMap Output.origins).Nodup ∧
      (∀ n ∈ o.units.map OutputUnit.name, n ∈ o'.units.map OutputUnit.name →
        ∃ x ∈ o.origins, ∃ y ∈ o'.origins, x ≠ y ∧ n ∈ x.unitNames ∧ n ∈ y.unitNames) ∧
      (s₀.compile sharedName.flatten).toOption.map
        (fun r => (r.2.units.map OutputUnit.name, r.2.diagnostics.map Diagnostic.code)) =
          some (["State.cc", "State.hh"], ["E0105"]) := by
  have hrun : ((Session.start .prelude).toOption.bind fun s₀ =>
      (s₀.compileAll sharedName).toOption.map fun r => decide (
        r.2.map Output.origins = [[.type none "State"], [.func none "State"]] ∧
        (s₀.compile sharedName.flatten).toOption.map
          (fun r => (r.2.units.map OutputUnit.name, r.2.diagnostics.map Diagnostic.code)) =
            some (["State.cc", "State.hh"], ["E0105"]))) = some true := by decide +kernel
  obtain ⟨s₀, hs₀, hrun⟩ := Option.bind_eq_some_iff.mp hrun
  obtain ⟨⟨s, outputs⟩, hc, hrun⟩ := Option.map_eq_some_iff.mp hrun
  rw [toOption_eq_some] at hs₀ hc
  obtain ⟨horigins, htogether⟩ := of_decide_eq_true hrun
  obtain ⟨s', outputs', hc', -, hnodup, -, hshared, -⟩ := compileAll_origins hs₀ sharedName
  rw [hc] at hc'
  cases hc'
  obtain ⟨o, rest, rfl, ho, hrest⟩ := List.map_eq_cons_iff.mp horigins
  obtain ⟨o', rest, rfl, ho', hrest⟩ := List.map_eq_cons_iff.mp hrest
  obtain rfl := List.map_eq_nil_iff.mp hrest
  obtain ⟨hpair, -⟩ := List.pairwise_cons.mp hshared
  exact ⟨s₀, hs₀, s, o, o', hc, ho, ho', hnodup, hpair o' List.mem_cons_self, htogether⟩

/-- Both lists compile without errors, and both outputs have the unit `State.cc`. -/
theorem compileAll_repeats_unit : ∃ s₀ s o o', Session.start .prelude = .ok s₀ ∧
    s₀.compileAll sharedName = .ok (s, [o, o']) ∧ o.diagnostics = [] ∧ o'.diagnostics = [] ∧
      "State.cc" ∈ o.units.map OutputUnit.name ∧ "State.cc" ∈ o'.units.map OutputUnit.name := by
  have hrun : ((Session.start .prelude).toOption.bind fun s₀ =>
      (s₀.compileAll sharedName).toOption.map fun r => decide (
        r.2.map (fun o => (o.diagnostics, o.units.map OutputUnit.name)) =
          [([], ["State.cc", "State.hh"]), ([], ["State.cc"])])) = some true := by decide +kernel
  obtain ⟨s₀, hs₀, hrun⟩ := Option.bind_eq_some_iff.mp hrun
  obtain ⟨⟨s, outputs⟩, hc, hrun⟩ := Option.map_eq_some_iff.mp hrun
  rw [toOption_eq_some] at hs₀ hc
  obtain ⟨o, rest, rfl, ho, hrest⟩ := List.map_eq_cons_iff.mp (of_decide_eq_true hrun)
  obtain ⟨o', rest, rfl, ho', hrest⟩ := List.map_eq_cons_iff.mp hrest
  obtain rfl := List.map_eq_nil_iff.mp hrest
  obtain ⟨herrors, hunits⟩ := Prod.mk.inj ho
  obtain ⟨herrors', hunits'⟩ := Prod.mk.inj ho'
  exact ⟨s₀, s, o, o', hs₀, hc, herrors, herrors', by simp [hunits], by simp [hunits']⟩

end Session

end Coherence
