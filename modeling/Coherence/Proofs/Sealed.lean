import Coherence.Proofs.Turns
/-!
# Machines are sealed

What is compiled inside a machine stays there: the frames around it are as before, and so are the fields
of all types declared by then (`SymbolTable.Unaltered`). A machine that no other one encloses compiles on
every symbol table that the operations on tables build (`SymbolTable.Built`). It holds what came of those
members that compiled (`MachineDecl.Gathers`); the others leave an error each and nothing else.
-/

namespace Coherence

open SymbolTable (Kept)

namespace SymbolTable

/-- The frame was opened, and perhaps closed again. -/
def Opened (t : SymbolTable) (id : FrameId) : Prop := id.index < t.opened.count id.owner

instance (t : SymbolTable) (id : FrameId) : Decidable (t.Opened id) :=
  inferInstanceAs (Decidable (_ < _))

/-- `u` has the frames of `t` with the same symbols, and the types declared in the frames that were opened
by then have the same fields. Nothing is said of types whose frame was opened later. -/
structure Unaltered (t u : SymbolTable) : Prop where
  frames : u.frames = t.frames
  types : ∀ τ : TypeSymbol, t.Opened τ.home → u.define τ = t.define τ

/-- The type is bound in one of the frames. -/
def Binds (t : SymbolTable) (τ : TypeSymbol) : Prop :=
  ∃ f ∈ t.frames, ∃ key : String × SymbolKind, (key, .type τ) ∈ f.symbols

/-- A symbol table as the operations on tables build it. A type is known only once the frame that it is
declared in is open. -/
inductive Built : SymbolTable → Prop
  | initial : Built .initial
  | push {t : SymbolTable} (owner : Option String) : Built t → Built (t.push owner)
  | pop {t u : SymbolTable} : Built t → t.pop = .ok u → Built u
  | declare {t u : SymbolTable} {s : Symbol} : Built t → (∀ τ, s = .type τ → t.Opened τ.home) →
      t.declare s = .ok u → Built u
  | resolveField {t u : SymbolTable} {τ : TypeSymbol} {position : Nat} {field : String}
      {found : FieldType} : Built t → t.Opened τ.home →
      t.resolveField τ position field found = .ok u → Built u

/-- What holds of all tables that are built. -/
structure Regular (t : SymbolTable) : Prop where
  keyed : t.Keyed
  /-- A type whose fields are on record was declared in a frame opened so far. -/
  marked : ∀ k, t.Records k → t.Opened k.home
  /-- So was a type that is bound. -/
  types : ∀ f ∈ t.frames, ∀ e ∈ f.symbols, ∀ τ, e.2 = .type τ → t.Opened τ.home

variable {t u : SymbolTable}

theorem Opened.push {id : FrameId} (h : t.Opened id) (owner : Option String) :
    (t.push owner).Opened id :=
  Nat.lt_of_lt_of_le h List.count_le_count_cons

namespace Regular

theorem initial : initial.Regular where
  keyed := Sound.initial.keyed
  marked := Sound.initial.marked
  types := by
    intro f hf e he τ hτ
    rw [List.mem_singleton.mp hf] at he
    rw [List.mem_singleton.mp he] at hτ
    cases hτ
    decide

theorem push (h : t.Regular) (owner : Option String) : (t.push owner).Regular where
  keyed := h.keyed.push
  marked := fun k hk => (h.marked k hk).push owner
  types := by
    intro f hf e he τ hτ
    rcases List.mem_cons.mp hf with rfl | hf
    · cases he
    · exact (h.types f hf e he τ hτ).push owner

theorem pop (h : t.Regular) (hu : t.pop = .ok u) : u.Regular := by
  unfold SymbolTable.pop at hu
  split at hu
  · cases hu
  · rename_i top outer houter
    cases hu
    have hsub : ∀ f ∈ top :: outer, f ∈ t.frames := by
      intro f hf
      rw [frames, houter]
      exact List.mem_cons_of_mem _ hf
    exact ⟨fun f hf => h.keyed f (hsub f hf), h.marked, fun f hf => h.types f (hsub f hf)⟩

theorem declare {s : Symbol} (h : t.Regular) (hs : ∀ τ, s = .type τ → t.Opened τ.home)
    (hu : t.declare s = .ok u) : u.Regular := by
  obtain ⟨-, rfl⟩ := declare_eq_ok.mp hu
  refine ⟨h.keyed.bind s, h.marked, ?_⟩
  intro f hf e he τ hτ
  rcases List.mem_cons.mp hf with rfl | hf
  · rcases List.mem_cons.mp he with rfl | he
    · exact hs τ hτ
    · exact h.types t.top List.mem_cons_self e he τ hτ
  · exact h.types f (List.mem_cons_of_mem _ hf) e he τ hτ

theorem resolveField {τ : TypeSymbol} {position : Nat} {field : String} {found : FieldType}
    (h : t.Regular) (hτ : t.Opened τ.home) (hu : t.resolveField τ position field found = .ok u) :
    u.Regular := by
  unfold SymbolTable.resolveField at hu
  split at hu
  · cases hu
  · cases hu
    refine ⟨h.keyed, fun k hk => ?_, h.types⟩
    by_cases hkey : k = τ.key
    · rw [hkey]
      exact hτ
    · refine h.marked k ?_
      have hne : (k == τ.key) = false := by simpa using hkey
      simpa [Records, List.lookup_cons, hne] using hk

theorem sound_push (h : t.Regular) (owner : Option String) : (t.push owner).Sound where
  keyed := h.keyed.push
  bound := by
    intro k hk hhome
    have hmarked := h.marked k hk
    rw [hhome] at hmarked
    exact absurd hmarked (Nat.lt_irrefl _)
  marked := fun k hk => (h.marked k hk).push owner
  opened := by
    show t.opened.count owner < (owner :: t.opened).count owner
    rw [List.count_cons_self]
    omega

end Regular

theorem Built.regular (h : t.Built) : t.Regular := by
  induction h with
  | initial => exact .initial
  | push owner _ ih => exact ih.push owner
  | pop _ hu ih => exact ih.pop hu
  | declare _ hs hu ih => exact ih.declare hs hu
  | resolveField _ hτ hu ih => exact ih.resolveField hτ hu

/-- All types that are bound in an unaltered table have the fields that they had. -/
theorem Unaltered.define_binds (h : t.Unaltered u) (ht : t.Built) {τ : TypeSymbol} (hτ : t.Binds τ) :
    u.define τ = t.define τ := by
  obtain ⟨f, hf, key, hmem⟩ := hτ
  exact h.types τ (ht.regular.types f hf (key, .type τ) hmem τ rfl)

theorem Kept.unaltered {owner : Option String} {id : FrameId} (h : Kept owner (·.home = id) t u)
    (hid : ¬t.Opened id) : t.Unaltered u := by
  refine ⟨h.frames, fun τ hτ => ?_⟩
  unfold define foundFields
  rw [h.fieldTypes _ fun heq : τ.home = id => hid (heq ▸ hτ)]

end SymbolTable

/-! ### Members -/

namespace Turn

theorem output_of_failed {u : Turn} (h : ¬u.Compiles) :
    u.output.functions = [] ∧ u.output.types = [] ∧ ∃ e, u.failure? = some ⟨u.decl.ident, e⟩ := by
  obtain ⟨decl, table, result⟩ := u
  cases result with
  | ok c => exact absurd ⟨c, rfl⟩ h
  | error e => exact ⟨rfl, rfl, e, rfl⟩

/-- Without a declaration that fails the functions and the types are the same. -/
theorem outputs_without (before after : List Turn) {u : Turn} (h : ¬u.Compiles) :
    (outputs (before ++ u :: after)).functions = (outputs (before ++ after)).functions ∧
      (outputs (before ++ u :: after)).types = (outputs (before ++ after)).types := by
  obtain ⟨hfunctions, htypes, -⟩ := output_of_failed h
  have hcons : outputs (u :: after) = u.output.append (outputs after) := rfl
  rw [outputs_append, outputs_append, hcons]
  simp only [Output.append, hfunctions, htypes, List.nil_append, and_self]

/-- The declaration was not turned away for a unit that is taken. It owes its units from then on, even if
it fails. -/
def Claims (u : Turn) : Prop := ∀ file location, u.result ≠ .error (.outputTaken file location)

/-- The declaration was turned away for a unit that is taken. -/
def Refused (u : Turn) : Prop := ∃ file, u.result = .error (.outputTaken file u.decl.location)

end Turn

namespace Stage

variable {s : Stage} {compile : Site → Except CompileError Compiled × Site} {d : Decl} {n : String}

theorem refused_attempt (hn : n ∈ (d.outputFiles s.site.owner).names) (hclaimed : n ∈ s.claimed.names) :
    ∃ file, (s.attempt compile d).1 = .error (.outputTaken file d.location) := by
  unfold attempt claimOutputs
  cases hfile : (d.outputFiles s.site.owner).names.find? s.claimed.contains with
  | some file => exact ⟨file, rfl⟩
  | none =>
      have hfree := List.find?_eq_none.mp hfile n hn
      rw [NameMap.contains_iff] at hfree
      exact absurd hclaimed hfree

theorem claimed_of_claims
    (h : ∀ file location, (s.attempt compile d).1 ≠ .error (.outputTaken file location))
    (hn : n ∈ (d.outputFiles s.site.owner).names) : n ∈ (s.attempt compile d).2.claimed.names := by
  unfold attempt at h ⊢
  cases hclaim : claimOutputs s.claimed (d.outputFiles s.site.owner) d.location with
  | ok claimed =>
      obtain ⟨-, rfl⟩ := claimOutputs_eq_ok.mp hclaim
      exact NameSet.mem_names_addAll.mpr (.inl hn)
  | error e =>
      rw [hclaim] at h
      unfold claimOutputs at hclaim
      split at hclaim
      · cases hclaim
        exact absurd rfl (h _ _)
      · cases hclaim

end Stage

/-- A member is refused that owes a unit claimed before the first one, or by one before it. -/
theorem MemberRun.refused_turns {r : MemberRun} {ps : List Pending} {before after : List Turn} {u : Turn}
    {n : String} (h : r.stage.site.Sound ps) (hu : r.turns ps = before ++ u :: after)
    (hn : n ∈ u.files r.stage.site.owner)
    (howed : n ∈ r.stage.claimed.names ∨
      ∃ w ∈ before, w.Claims ∧ n ∈ w.files r.stage.site.owner) : u.Refused := by
  induction before generalizing r ps with
  | nil =>
      cases ps with
      | nil => cases hu
      | cons p ps =>
          obtain ⟨r', hturns, -⟩ := turns_cons h
          obtain ⟨rfl, -⟩ := List.cons.inj (hturns.symm.trans hu)
          exact Stage.refused_attempt hn (howed.resolve_right (by simp))
  | cons w before ih =>
      cases ps with
      | nil => cases hu
      | cons p ps =>
          obtain ⟨r', hstep, hstage, hsound, howner⟩ := sound_step h
          simp only [turns, hstep, List.cons_append, List.cons.injEq] at hu
          obtain ⟨rfl, hrest⟩ := hu
          refine ih hsound hrest (howner ▸ hn) ?_
          rw [howner, hstage]
          -- What is claimed stays claimed, and the first member adds its units.
          rcases howed with hclaimed | ⟨w, hw, hclaims, hnw⟩
          · exact .inl (Stage.claimed_attempt hclaimed)
          · rcases List.mem_cons.mp hw with rfl | hw
            · exact .inl (Stage.claimed_of_claims hclaims hnw)
            · exact .inr ⟨w, hw, hclaims, hnw⟩

namespace MachineDecl

/-- The unit is owed once these members had their turns: it is the header of the controller, or one of
them claimed it. -/
def Owed (d : MachineDecl Decl) (before : List Turn) (n : String) : Prop :=
  n = headerName (StateMachine.controllerOf d.ident) ∨
    ∃ w ∈ before, w.Claims ∧ n ∈ w.files (some d.ident)

/-- A machine compiled on this table has what came of its members, one after another. -/
structure Gathers (d : MachineDecl Decl) (t : SymbolTable) (c : CompiledMachine) : Prop where
  /-- Every member has its turn. -/
  members : (d.turns t).map Turn.decl = d.members
  gains : d.initial.Gains (Turn.outputs (d.turns t)) c.machine
  errors : c.errors = (d.turns t).filterMap Turn.failure?
  functionOwner : ∀ f ∈ c.machine.functions, f.machine = some d.ident
  typeOwner : ∀ τ ∈ c.machine.types, τ.symbol.machine = some d.ident
  /-- A member that fails leaves its error, and the machine is the one that the others make. -/
  failed : ∀ before u after, d.turns t = before ++ u :: after → ¬u.Compiles →
    (∃ e, ⟨u.decl.ident, e⟩ ∈ c.errors) ∧ d.initial.Gains (Turn.outputs (before ++ after)) c.machine
  /-- A member is refused if a unit of it is owed already. -/
  refused : ∀ before u after, d.turns t = before ++ u :: after →
    ∀ n ∈ u.files (some d.ident), d.Owed before n → u.Refused

variable {t : SymbolTable}

theorem sound_start_of_regular (h : t.Regular) (d : MachineDecl Decl) :
    (d.start (d.inner t).1).stage.site.Sound (d.inner t).2 where
  table := Decl.sound_predeclareAll _ (h.sound_push _) _
  roster := by
    rintro _ ⟨⟩
    exact Roster.valid_empty
  awaits := Decl.awaits_predeclareAll _ (h.sound_push _) _

theorem gathers_compile (h : t.Regular) (d : MachineDecl Decl) :
    ∃ c, (d.compile t).1 = .ok c ∧ d.Gathers t c := by
  have hstart := sound_start_of_regular h d
  obtain ⟨hdecls, hanswers, -⟩ := MemberRun.turns_spec hstart
  obtain ⟨m, hm, hgains, herrors⟩ := MemberRun.gains_steps hstart rfl
  obtain ⟨r, hr, -⟩ := MemberRun.sound_steps _ hstart
  rw [inner, Decl.map_decl_predeclareAll] at hdecls
  rw [hr] at hm herrors
  have hcompile : (d.compile t).1 = .ok ⟨m, r.errors⟩ := compile_eq_ok.mpr ⟨r, hr, hm, rfl⟩
  obtain ⟨hfunctions, htypes⟩ := Turn.machine_outputs hanswers
  refine ⟨_, hcompile, hdecls, hgains, herrors, ?_, ?_, ?_, ?_⟩
  · rw [hgains.functions]
    exact hfunctions
  · rw [hgains.types]
    exact fun τ hτ => (htypes τ hτ).1
  · intro before u after hu hfailed
    obtain ⟨-, -, e, he⟩ := Turn.output_of_failed hfailed
    obtain ⟨hwithout, hwithout'⟩ := Turn.outputs_without before after hfailed
    refine ⟨⟨e, ?_⟩, hgains.ident, hgains.location, hgains.attributes, ?_, ?_⟩
    · rw [herrors]
      exact List.mem_filterMap.mpr ⟨u, by rw [show MemberRun.turns _ _ = _ from hu]; simp, he⟩
    · rw [hgains.functions, ← hwithout]
      exact congrArg (fun ts => _ ++ (Turn.outputs ts).functions) hu
    · rw [hgains.types, ← hwithout']
      exact congrArg (fun ts => _ ++ (Turn.outputs ts).types) hu
  · intro before u after hu n hn howed
    refine MemberRun.refused_turns hstart hu hn (howed.imp_left fun heq => ?_)
    rw [heq]
    exact NameSet.mem_names_ofNames.mpr List.mem_cons_self

/-- A machine leaves the symbol table unaltered, and with it all types that are bound; it is refused inside
another one. Otherwise it compiles, on every table that is built, and gathers what comes of its members. -/
theorem compile_sealed (s : Site) (d : MachineDecl Decl) :
    s.table.Unaltered ((Decl.machine d).compile s).2.table ∧
    (s.table.Built → ∀ τ, s.table.Binds τ →
      ((Decl.machine d).compile s).2.table.define τ = s.table.define τ) ∧
    ((Decl.machine d).compile s).2.machine = s.machine ∧
    (s.machine ≠ none →
      (Decl.machine d).compile s = (.error (.nestedMachine d.ident d.location), s)) ∧
    (s.machine = none → s.table.Built →
      ∃ c, ((Decl.machine d).compile s).1 = .ok (.machine c) ∧ d.Gathers s.table c) := by
  obtain ⟨table, machine⟩ := s
  cases machine with
  | some m =>
      exact ⟨⟨rfl, fun _ _ => rfl⟩, fun _ _ _ => rfl, rfl, fun _ => rfl, fun h => (nomatch h)⟩
  | none =>
      have hcompile : (Decl.machine d).compile ⟨table, none⟩ = _ := Pending.compile_machine rfl d
      have hunaltered := (d.kept_compile table).unaltered (Nat.lt_irrefl _)
      rw [hcompile]
      refine ⟨hunaltered, fun hbuilt τ hτ => hunaltered.define_binds hbuilt hτ, rfl,
        fun h => absurd rfl h, ?_⟩
      rintro - hbuilt
      obtain ⟨c, hc, hgathers⟩ := gathers_compile hbuilt.regular d
      exact ⟨c, by rw [hc]; rfl, hgathers⟩

/-- Two frames inside the outermost one. -/
def twoFrames : SymbolTable := (SymbolTable.initial.push).push

/-- A machine of which two members compile. The others owe the header of the controller or the same unit
as another one, are a machine, or name a type that does not exist. -/
def crowded : MachineDecl Decl := { ident := "L1", members := [
  .type { ident := "State", body := .enumeration ["I", "M"] },
  .type { ident := "Controller" },
  .func { returnType := { ident := "void" }, ident := "next", statements := some [.ret none {}] },
  .func { returnType := { ident := "State" }, ident := "next", statements := some [.ret none {}] },
  .machine { ident := "Inner" },
  .func { returnType := { ident := "Missing" }, ident := "probe" }] }

/-- Two members come of it, and four errors. -/
theorem compile_sealed_crowded :
    twoFrames.Unaltered ((Decl.machine crowded).compile { table := twoFrames }).2.table ∧
    ∃ c, ((Decl.machine crowded).compile { table := twoFrames }).1 = .ok (.machine c) ∧
      crowded.Gathers twoFrames c ∧ c.machine.functions.map Func.cIdent = ["L1_next"] ∧
      c.machine.types.map (fun τ => τ.symbol.cIdent) = ["L1_State"] ∧
      c.errors.map (fun e => (e.decl, e.error.code)) =
        [("Controller", "E0105"), ("next", "E0105"), ("Inner", "E0301"), ("probe", "E0102")] := by
  obtain ⟨hunaltered, -, -, -, hcompiles⟩ := compile_sealed { table := twoFrames } crowded
  obtain ⟨c, hc, hgathers⟩ := hcompiles rfl (.push _ (.push _ .initial))
  have hcompile : (Decl.machine crowded).compile { table := twoFrames } = _ :=
    Pending.compile_machine rfl crowded
  have hparts : (crowded.compile twoFrames).1.toOption.map (fun c => decide (
      c.machine.functions.map Func.cIdent = ["L1_next"] ∧
      c.machine.types.map (fun τ => τ.symbol.cIdent) = ["L1_State"] ∧
      c.errors.map (fun e => (e.decl, e.error.code)) =
        [("Controller", "E0105"), ("next", "E0105"), ("Inner", "E0301"), ("probe", "E0102")])) =
      some true := by decide +kernel
  obtain ⟨c', hc', hparts⟩ := Option.map_eq_some_iff.mp hparts
  have hsame : c = c' := by
    rw [hcompile, toOption_eq_some.mp hc'] at hc
    exact (Compiled.machine.inj (Except.ok.inj hc)).symm
  exact ⟨hunaltered, c, hc, hgathers, hsame ▸ of_decide_eq_true hparts⟩

end MachineDecl

end Coherence
