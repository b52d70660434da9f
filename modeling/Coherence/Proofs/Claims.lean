import Coherence.Proofs.Runs
/-!
# What turns stand for, and what they claim

A turn that succeeds has the result of its own declaration (`Turn.Answers`), and its units were
claimed by no declaration before it (`Turn.Accounted`). So no two turns that succeed owe a unit of the
same name (`Turn.Accounted.disjoint`), whether their declarations stand at top level or in a machine.
-/

namespace Coherence

theorem claimOutputs_eq_ok {claimed files claimed' : NameSet} {location : Location} :
    claimOutputs claimed files location = .ok claimed' ↔
      (∀ n ∈ files.names, n ∉ claimed.names) ∧ claimed.addAll files.names = claimed' := by
  have hfind : files.names.find? claimed.contains = none ↔ ∀ n ∈ files.names, n ∉ claimed.names := by
    simp only [List.find?_eq_none, NameMap.contains_iff]
  rw [← hfind]
  unfold claimOutputs
  cases files.names.find? claimed.contains <;> simp

namespace Stage

variable {s : Stage} {compile : Site → Except CompileError Compiled × Site} {d : Decl}

theorem claimed_attempt {n : String} (h : n ∈ s.claimed.names) :
    n ∈ (s.attempt compile d).2.claimed.names := by
  unfold attempt
  split
  · exact h
  · rename_i hc
    obtain ⟨-, rfl⟩ := claimOutputs_eq_ok.mp hc
    exact NameSet.mem_names_addAll.mpr (.inr h)

/-- A declaration compiles if its units are not claimed; it claims them. -/
theorem attempt_eq_ok {c : Compiled} {s' : Stage} :
    s.attempt compile d = (.ok c, s') ↔ ∃ site,
      (∀ n ∈ (d.outputFiles s.site.owner).names, n ∉ s.claimed.names) ∧
        compile s.site = (.ok c, site) ∧
        s' = { site, claimed := s.claimed.addAll (d.outputFiles s.site.owner).names } := by
  unfold attempt
  constructor
  · intro h
    split at h
    · cases h
    · rename_i hclaim
      obtain ⟨hfree, rfl⟩ := claimOutputs_eq_ok.mp hclaim
      cases hc : compile s.site with
      | mk result site =>
          rw [hc] at h
          cases h
          exact ⟨site, hfree, rfl, rfl⟩
  · rintro ⟨site, hfree, hc, rfl⟩
    have hclaim : claimOutputs s.claimed (d.outputFiles s.site.owner) d.location = .ok _ :=
      claimOutputs_eq_ok.mpr ⟨hfree, rfl⟩
    simp only [hclaim, hc]

/-- The units of a declaration that compiles are claimed by it, and nobody has before. -/
theorem claims_attempt {c : Compiled} (h : (s.attempt compile d).1 = .ok c) :
    (compile s.site).1 = .ok c ∧ ∀ n ∈ (d.outputFiles s.site.owner).names,
      n ∉ s.claimed.names ∧ n ∈ (s.attempt compile d).2.claimed.names := by
  have hattempt : s.attempt compile d = (.ok c, (s.attempt compile d).2) := Prod.ext h rfl
  obtain ⟨site, hfree, hc, hstage⟩ := attempt_eq_ok.mp hattempt
  rw [hstage, hc]
  exact ⟨rfl, fun n hn => ⟨hfree n hn, NameSet.mem_names_addAll.mpr (.inl hn)⟩⟩

end Stage

namespace Turn

/-- The declaration compiled. -/
def Compiles (t : Turn) : Prop := ∃ c, t.result = .ok c

def files (parent : Option String) (t : Turn) : List String := (t.decl.outputFiles parent).names

/-- If the declaration compiled it is its own result that came of it. -/
def Answers (parent : Option String) (t : Turn) : Prop :=
  ∀ c, t.result = .ok c →
    match t.decl, c with
    | .func d, .func f => ∃ m : Option StateMachine, m.map StateMachine.ident = parent ∧
        (d.toFunc { table := t.table, machine := m }).1 = .ok f
    | .type d, .type def' => ∃ home, def'.symbol = { d.symbol parent with home }
    | .machine d, .machine c => parent = none ∧ (d.compile t.table).1 = .ok c
    | _, _ => False

/-- Each declaration that compiled owes units that were not claimed when its turn came, and claims
them. -/
inductive Accounted (parent : Option String) : NameSet → List Turn → Prop
  | nil {claimed} : Accounted parent claimed []
  | cons {claimed claimed' t ts} : (∀ n ∈ claimed.names, n ∈ claimed'.names) →
      (t.Compiles → ∀ n ∈ t.files parent, n ∉ claimed.names ∧ n ∈ claimed'.names) →
      Accounted parent claimed' ts → Accounted parent claimed (t :: ts)

namespace Accounted

variable {parent : Option String} {claimed : NameSet} {ts : List Turn}

theorem unclaimed (h : Accounted parent claimed ts) :
    ∀ t ∈ ts, t.Compiles → ∀ n ∈ t.files parent, n ∉ claimed.names := by
  induction h with
  | nil => simp
  | cons hmono hclaim _ ih =>
      intro t ht hc n hn
      rcases List.mem_cons.mp ht with rfl | ht
      · exact (hclaim hc n hn).1
      · exact fun hmem => ih t ht hc n hn (hmono n hmem)

theorem disjoint (h : Accounted parent claimed ts) :
    ts.Pairwise fun t u => t.Compiles → u.Compiles → ∀ n ∈ t.files parent, n ∉ u.files parent := by
  induction h with
  | nil => exact .nil
  | cons _ hclaim hts ih =>
      refine List.pairwise_cons.mpr ⟨fun u hu ht hcu n hn hmem => ?_, ih⟩
      exact hts.unclaimed u hu hcu n hmem (hclaim ht n hn).2

end Accounted

end Turn

/-! ### Members -/

/-- What a declaration that is not a machine compiles into is its own. -/
theorem Pending.answers_compileMember {s : Site} {home : FrameId} (p : Pending)
    (hp : p.SettledIn s.owner home) {c : Compiled} (h : (p.compileMember s).1 = .ok c) :
    Turn.Answers s.owner ⟨p.decl, s.table, .ok c⟩ := by
  rintro _ ⟨⟩
  cases p with
  | func d =>
      obtain ⟨f, hf, rfl⟩ := map_eq_ok.mp h
      exact ⟨s.machine, rfl, FuncDecl.toFunc_of_compile hf⟩
  | machine d => cases h
  | type d state =>
      cases state with
      | pending => exact hp.elim
      | rejected e => cases h
      | declared type =>
          obtain ⟨def', hdef, rfl⟩ := map_eq_ok.mp h
          replace hdef : (TypeDecl.compileDeclared s type).1 = .ok def' := hdef
          obtain ⟨u, -, ⟨e, hc, -⟩ | hc⟩ := TypeDecl.compileDeclared_cases s type <;>
            rw [hc] at hdef <;> cases hdef
          exact ⟨home, hp⟩

namespace MemberRun

variable {r : MemberRun} {ps : List Pending}

theorem turns_spec (h : r.stage.site.Sound ps) :
    (r.turns ps).map Turn.decl = ps.map Pending.decl ∧
      (∀ t ∈ r.turns ps, t.Answers r.stage.site.owner) ∧
      Turn.Accounted r.stage.site.owner r.stage.claimed (r.turns ps) := by
  induction ps generalizing r with
  | nil => exact ⟨rfl, by simp [turns], .nil⟩
  | cons p ps ih =>
      obtain ⟨r', hstep, hstage, hr', howner⟩ := sound_step h
      obtain ⟨hdecls, hanswers, haccounted⟩ := ih hr'
      rw [howner] at hanswers haccounted
      have hturns : r.turns (p :: ps) =
          ⟨p.decl, r.stage.site.table, (r.attempt p).1⟩ :: r'.turns ps := by
        simp only [turns, hstep]
      rw [hturns]
      refine ⟨?_, ?_, ?_⟩
      · rw [List.map_cons, List.map_cons, hdecls]
      · intro t ht
        rcases List.mem_cons.mp ht with rfl | ht
        · intro c hc
          have hok := (Stage.claims_attempt hc).1
          exact p.answers_compileMember (h.awaits.settled p List.mem_cons_self) hok c rfl
        · exact hanswers t ht
      · refine .cons ?_ ?_ haccounted
        · intro n hn
          rw [hstage]
          exact Stage.claimed_attempt hn
        · rintro ⟨c, hc⟩ n hn
          rw [hstage]
          exact (Stage.claims_attempt hc).2 n hn

end MemberRun

/-- The turns of a machine's members. The header of its controller is claimed before the first. -/
theorem MachineDecl.turns_spec {t : SymbolTable} (h : t.Sound) (d : MachineDecl Decl) :
    (d.turns t).map Turn.decl = d.members ∧ (∀ turn ∈ d.turns t, turn.Answers (some d.ident)) ∧
      Turn.Accounted (some d.ident) (.ofNames [headerName (StateMachine.controllerOf d.ident)])
        (d.turns t) := by
  obtain ⟨hdecls, hspec⟩ := MemberRun.turns_spec (sound_start h d)
  rw [inner, Decl.map_decl_predeclareAll] at hdecls
  exact ⟨hdecls, hspec⟩

theorem MachineDecl.turns_eq_cons {t : SymbolTable} (h : t.Sound) {d : MachineDecl Decl} {u : Turn}
    (hu : (d.turns t)[0]? = some u) :
    ∃ rest, d.turns t = u :: rest ∧ d.members[0]? = some u.decl := by
  have hdecl := congrArg (·[0]?) (d.turns_spec h).1
  simp only [List.getElem?_map, hu, Option.map_some] at hdecl
  obtain ⟨rest, hrest⟩ := List.head?_eq_some_iff.mp (List.head?_eq_getElem?.trans hu)
  exact ⟨rest, hrest, hdecl.symm⟩

/-! ### What a machine gathers -/

/-- The machine has one more output's functions and types, and is the same otherwise. -/
structure StateMachine.Gains (m : StateMachine) (o : Output) (m' : StateMachine) : Prop where
  ident : m'.ident = m.ident
  location : m'.location = m.location
  attributes : m'.attributes = m.attributes
  functions : m'.functions = m.functions ++ o.functions
  types : m'.types = m.types ++ o.types

namespace StateMachine.Gains

variable {m m' m'' : StateMachine} {o o' : Output}

theorem refl (hf : o.functions = []) (ht : o.types = []) : m.Gains o m := by
  refine ⟨rfl, rfl, rfl, ?_, ?_⟩
  · rw [hf, List.append_nil]
  · rw [ht, List.append_nil]

theorem trans (h : m.Gains o m') (h' : m'.Gains o' m'') : m.Gains (o.append o') m'' where
  ident := h'.ident.trans h.ident
  location := h'.location.trans h.location
  attributes := h'.attributes.trans h.attributes
  functions := by rw [h'.functions, h.functions, List.append_assoc, Output.append]
  types := by rw [h'.types, h.types, List.append_assoc, Output.append]

theorem of_addFunc {f : Func} (h : m.addFunc f = .ok m') (ds : List Diagnostic) :
    m.Gains { functions := [f], diagnostics := ds } m' := by
  obtain ⟨roster, hadd, rfl⟩ := StateMachine.addFunc_eq_ok.mp h
  obtain ⟨-, rfl⟩ := Roster.add?_eq_some.mp hadd
  exact ⟨rfl, rfl, rfl, rfl, (List.append_nil _).symm⟩

end StateMachine.Gains

def Turn.failure? (t : Turn) : Option DeclError :=
  match t.result with
  | .ok _ => none
  | .error e => some ⟨t.decl.ident, e⟩

theorem Turn.compiles_of_failures {ts : List Turn} (h : ts.filterMap Turn.failure? = []) :
    ∀ t ∈ ts, t.Compiles := by
  intro t ht
  have hnone := List.filterMap_eq_nil_iff.mp h t ht
  unfold Turn.failure? at hnone
  cases hr : t.result with
  | ok c => exact ⟨c, hr⟩
  | error e =>
      rw [hr] at hnone
      cases hnone

/-- A member adds its part to the machine. -/
theorem Pending.gains_compileMember {s : Site} {m : StateMachine} {home : FrameId}
    (hm : s.machine = some m) (p : Pending) (hp : p.SettledIn s.owner home) :
    ∃ m', (p.compileMember s).2.machine = some m' ∧
      m.Gains (Turn.output ⟨p.decl, s.table, (p.compileMember s).1⟩) m' := by
  cases p with
  | func d =>
      show ∃ m', (d.compile s).2.machine = some m' ∧
        m.Gains (Turn.output ⟨.func d, s.table, (d.compile s).1.map .func⟩) m'
      obtain ⟨u, -, -, ⟨e, hc, -⟩ | ⟨f, -, ⟨hnone, -, -⟩ | ⟨m₀, m', hm₀, ha, hc⟩⟩⟩ :=
        FuncDecl.compile_cases s d
      · rw [hc]
        exact ⟨m, hm, .refl rfl rfl⟩
      · rw [hm] at hnone
        cases hnone
      · rw [hc]
        cases hm₀.symm.trans hm
        exact ⟨m', rfl, .of_addFunc ha _⟩
  | machine d => exact ⟨m, hm, .refl rfl rfl⟩
  | type d state =>
      cases state with
      | pending => exact hp.elim
      | rejected e => exact ⟨m, hm, .refl rfl rfl⟩
      | declared type =>
          show ∃ m', (TypeDecl.compileDeclared s type).2.machine = some m' ∧
            m.Gains (Turn.output ⟨.type d, s.table,
              (TypeDecl.compileDeclared s type).1.map .type⟩) m'
          obtain ⟨u, -, ⟨e, hc, -⟩ | hc⟩ := TypeDecl.compileDeclared_cases s type
          · rw [hc]
            exact ⟨m, hm, .refl rfl rfl⟩
          · rw [hc]
            refine ⟨m.addType (u.define type), by simp [Site.addType, hm], rfl, rfl, rfl, ?_, rfl⟩
            exact (List.append_nil _).symm

namespace MemberRun

variable {r : MemberRun} {m : StateMachine}

/-- A turn adds its part to the machine, or its failure to those recorded. -/
theorem gains_step {p : Pending} {ps : List Pending} (h : r.stage.site.Sound (p :: ps))
    (hm : r.stage.site.machine = some m) :
    ∃ m', (r.step p).2.stage.site.machine = some m' ∧
      m.Gains (Turn.output ⟨p.decl, r.stage.site.table, (r.attempt p).1⟩) m' ∧
      (r.step p).2.errors =
        r.errors ++ (Turn.failure? ⟨p.decl, r.stage.site.table, (r.attempt p).1⟩).toList := by
  have hattempt : ∃ m', (r.attempt p).2.site.machine = some m' ∧
      m.Gains (Turn.output ⟨p.decl, r.stage.site.table, (r.attempt p).1⟩) m' := by
    unfold attempt Stage.attempt
    split
    · exact ⟨m, hm, .refl rfl rfl⟩
    · exact p.gains_compileMember hm (h.awaits.settled p List.mem_cons_self)
  obtain ⟨m', hm', hgains⟩ := hattempt
  have hfatal : (r.step p).1 = none := by
    obtain ⟨r', hstep, -⟩ := sound_step h
    rw [hstep]
  unfold step at hfatal ⊢
  cases ha : r.attempt p with
  | mk result stage =>
      rw [ha] at hm' hgains hfatal
      cases result with
      | ok c => exact ⟨m', hm', hgains, (List.append_nil _).symm⟩
      | error e =>
          dsimp only at hfatal ⊢
          split at hfatal
          · cases hfatal
          · rename_i hharmless
            rw [if_neg hharmless]
            exact ⟨m', hm', hgains, rfl⟩

theorem gains_steps {ps : List Pending} (h : r.stage.site.Sound ps)
    (hm : r.stage.site.machine = some m) :
    ∃ m', (r.steps ps).2.stage.site.machine = some m' ∧ m.Gains (Turn.outputs (r.turns ps)) m' ∧
      (r.steps ps).2.errors = r.errors ++ (r.turns ps).filterMap Turn.failure? := by
  induction ps generalizing r m with
  | nil => exact ⟨m, hm, .refl rfl rfl, (List.append_nil _).symm⟩
  | cons p ps ih =>
      obtain ⟨r', hstep, -, hr', -⟩ := sound_step h
      obtain ⟨m₁, hm₁, hgains₁, herrors₁⟩ := gains_step h hm
      rw [hstep] at hm₁ herrors₁
      obtain ⟨m₂, hm₂, hgains₂, herrors₂⟩ := ih hr' hm₁
      simp only [steps, turns, hstep]
      refine ⟨m₂, hm₂, hgains₁.trans hgains₂, ?_⟩
      rw [herrors₂, herrors₁, List.append_assoc, List.filterMap_cons]
      cases Turn.failure? ⟨p.decl, r.stage.site.table, (r.attempt p).1⟩ <;> rfl

end MemberRun

/-- A compiled machine holds what its members compiled into, and the failures of the others. -/
theorem MachineDecl.gains_compile {t : SymbolTable} (h : t.Sound) (d : MachineDecl Decl)
    {c : CompiledMachine} (hc : (d.compile t).1 = .ok c) :
    d.initial.Gains (Turn.outputs (d.turns t)) c.machine ∧
      c.errors = (d.turns t).filterMap Turn.failure? := by
  obtain ⟨m, hm, hgains, herrors⟩ := MemberRun.gains_steps (sound_start h d) rfl
  obtain ⟨r, hr, hmachine, hfailures⟩ := compile_eq_ok.mp hc
  unfold run at hr
  rw [hr] at hm herrors
  cases hmachine.symm.trans hm
  exact ⟨hgains, hfailures.symm.trans herrors⟩

/-! ### Declarations at top level -/

namespace DeclRun

variable {r : DeclRun} {p : Pending} {ps : List Pending}

theorem claims_attempt (h : r.Sound (p :: ps)) {c : Compiled} (hc : (r.attempt p).1 = .ok c) :
    (p.compile r.stage.site).1 = .ok c ∧ ∀ n ∈ (p.decl.outputFiles none).names,
      n ∉ r.stage.claimed.names ∧ n ∈ (r.attempt p).2.claimed.names := by
  have howner := Site.owner_eq_none.mpr h.top
  unfold attempt at hc ⊢
  split at hc
  · cases hc
  · rw [← howner]
    exact Stage.claims_attempt hc

theorem claimed_attempt {n : String} (h : n ∈ r.stage.claimed.names) :
    n ∈ (r.attempt p).2.claimed.names := by
  unfold attempt
  split
  · exact h
  · exact Stage.claimed_attempt h

theorem answers_turn (h : r.Sound (p :: ps)) : (r.turn p).Answers none := by
  intro c hc
  have hok := (claims_attempt h hc).1
  have howner := Site.owner_eq_none.mpr h.top
  by_cases hp : ∀ d, p ≠ .machine d
  · rw [Pending.compile_eq_compileMember hp] at hok
    have hanswers := p.answers_compileMember (h.site.awaits.settled p List.mem_cons_self) hok c rfl
    rw [howner] at hanswers
    exact hanswers
  · obtain ⟨d, rfl⟩ : ∃ d, p = .machine d := by simpa using hp
    unfold Pending.compile at hok
    rw [h.top] at hok
    obtain ⟨c', hc', rfl⟩ := map_eq_ok.mp hok
    exact ⟨rfl, hc'⟩

theorem turns_spec (h : r.Sound ps) :
    (r.turns ps).map Turn.decl = ps.map Pending.decl ∧ (∀ t ∈ r.turns ps, t.table.Sound) ∧
      (∀ t ∈ r.turns ps, t.Answers none) ∧ Turn.Accounted none r.stage.claimed (r.turns ps) := by
  induction ps generalizing r with
  | nil => exact ⟨rfl, by simp [turns], by simp [turns], .nil⟩
  | cons p ps ih =>
      obtain ⟨r', hstep, hr', hstage, -⟩ := sound_step h
      obtain ⟨hdecls, htables, hanswers, haccounted⟩ := ih hr'
      have hturns : r.turns (p :: ps) = r.turn p :: r'.turns ps := by simp only [turns, hstep]
      rw [hturns]
      refine ⟨?_, ?_, ?_, ?_⟩
      · rw [List.map_cons, List.map_cons, hdecls]
        rfl
      · intro t ht
        rcases List.mem_cons.mp ht with rfl | ht
        · exact h.site.table
        · exact htables t ht
      · intro t ht
        rcases List.mem_cons.mp ht with rfl | ht
        · exact answers_turn h
        · exact hanswers t ht
      · refine .cons ?_ ?_ haccounted
        · intro n hn
          rw [hstage]
          exact claimed_attempt hn
        · rintro ⟨c, hc⟩ n hn
          rw [hstage]
          exact (claims_attempt h hc).2 n hn

end DeclRun

/-- The turns of a session's list. Nothing is claimed before the first. -/
theorem Session.turns_spec {s : Session} (h : s.Sound) (ds : List Decl) :
    (s.turns ds).map Turn.decl = ds ∧ (∀ t ∈ s.turns ds, t.table.Sound) ∧
      (∀ t ∈ s.turns ds, t.Answers none) ∧ Turn.Accounted none .empty (s.turns ds) := by
  obtain ⟨hdecls, hspec⟩ := DeclRun.turns_spec (sound_begin h ds)
  rw [Decl.map_decl_predeclareAll] at hdecls
  exact ⟨hdecls, hspec⟩

/-- Each declaration has its turn at its own place. -/
theorem Session.decl_turns {s : Session} (h : s.Sound) {ds : List Decl} {i : Nat} {w : Turn}
    (hw : (s.turns ds)[i]? = some w) : ds[i]? = some w.decl := by
  have hdecl := congrArg (·[i]?) (s.turns_spec h ds).1
  simp only [List.getElem?_map, hw, Option.map_some] at hdecl
  exact hdecl.symm

end Coherence
