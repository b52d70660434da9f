import Coherence.Proofs.UnitOrder
/-!
# The order of declarations

A list of declarations that compiles without errors does so when it is rearranged. The output is the
same but for the order of types, machines and diagnostics, and the units are the same
(`Session.compile_rearranged`).
-/

namespace Coherence

/-! ### Runs without errors -/

namespace DeclRun

variable {r u r' : DeclRun} {p q : Pending} {ps qs : List Pending} {c : Compiled} {site : Site}

/-- The next declaration compiles into this, without failed members, and leaves this site. -/
structure Takes (r : DeclRun) (p : Pending) (c : Compiled) (site : Site) : Prop where
  unique : ∀ d, p = .machine d → r.machines.contains d.ident = false
  free : ∀ n ∈ (p.decl.outputFiles none).names, n ∉ r.stage.claimed.names
  compile : p.compile r.stage.site = (.ok c, site)
  flawless : c.Flawless

theorem checkUnique_eq_ok : r.checkUnique p.decl = .ok () ↔
    ∀ d, p = .machine d → r.machines.contains d.ident = false := by
  cases p with
  | func d => exact ⟨fun _ _ h => (nomatch h), fun _ => rfl⟩
  | type d state => exact ⟨fun _ _ h => (nomatch h), fun _ => rfl⟩
  | machine d =>
      constructor
      · rintro h _ ⟨⟩
        exact contains_of_checkUnique h
      · intro h
        rw [Pending.decl, checkUnique, MachineRegistry.checkUnique, h d rfl]
        rfl

theorem attempt_eq_ok {stage : Stage} : r.attempt p = (.ok c, stage) ↔
    r.checkUnique p.decl = .ok () ∧ r.stage.attempt p.compile p.decl = (.ok c, stage) := by
  unfold attempt
  cases r.checkUnique p.decl with
  | error e => simp
  | ok _ => simp

/-- What a declaration that compiled adds to a run: its units are claimed, its frame is marked, and its
result stands in the registry and in the output. -/
structure Adds (r : DeclRun) (p : Pending) (c : Compiled) (r' : DeclRun) : Prop where
  claimed : ∀ n, n ∈ r'.stage.claimed.names ↔
    n ∈ (p.decl.outputFiles none).names ∨ n ∈ r.stage.claimed.names
  opened : ∀ name, r'.stage.site.table.opened.count (some name) =
    r.stage.site.table.opened.count (some name) + p.opens name
  registry : r'.machines.items =
    r.machines.items ++ (Turn.output ⟨p.decl, r.stage.site.table, .ok c⟩).machines
  output : r'.output = r.output.append (Turn.output ⟨p.decl, r.stage.site.table, .ok c⟩)

theorem Takes.attempt (ht : r.Takes p c site) (h : r.Sound (p :: ps)) : r.attempt p =
    (.ok c, { site, claimed := r.stage.claimed.addAll (p.decl.outputFiles none).names }) := by
  refine attempt_eq_ok.mpr ⟨checkUnique_eq_ok.mpr ht.unique, Stage.attempt_eq_ok.mpr ?_⟩
  rw [Site.owner_eq_none.mpr h.top]
  exact ⟨site, ht.free, ht.compile, rfl⟩

theorem Takes.step (ht : r.Takes p c site) (h : r.Sound (p :: ps)) :
    ∃ r', r.step p = .ok r' ∧ r'.Sound ps ∧ r'.stage.site = site ∧ r.Adds p c r' := by
  have hattempt := ht.attempt h
  obtain ⟨r', hstep, hsound, hstage, hout, hitems⟩ := sound_step h
  unfold turn at hout hitems
  rw [hattempt] at hstage hout hitems
  have hcount := fun name => Pending.count_compile h.top h.site name
  rw [ht.compile] at hcount
  refine ⟨r', hstep, hsound, by rw [hstage], fun n => ?_, fun name => ?_, hitems, hout⟩
  · rw [hstage]
    exact NameSet.mem_names_addAll
  · rw [hstage]
    exact hcount name

theorem takes_of_turn (h : r.Sound (p :: ps)) (herrors : (r.turn p).output.hasErrors = false) :
    ∃ c site, r.Takes p c site := by
  obtain ⟨c, hc⟩ := Turn.compiles_of_hasErrors herrors
  have hattempt : r.attempt p = (.ok c, (r.attempt p).2) := Prod.ext hc rfl
  obtain ⟨hunique, hstage⟩ := attempt_eq_ok.mp hattempt
  obtain ⟨site, hfree, hcompile, -⟩ := Stage.attempt_eq_ok.mp hstage
  rw [Site.owner_eq_none.mpr h.top] at hfree
  refine ⟨c, site, checkUnique_eq_ok.mp hunique, hfree, hcompile, ?_⟩
  cases c with
  | func f => trivial
  | type d => trivial
  | machine m => exact Turn.errors_of_hasErrors hc herrors

/-- The next declaration has its turn without errors. -/
def Clean (r : DeclRun) (p : Pending) (r' : DeclRun) : Prop :=
  r.step p = .ok r' ∧ ∃ c site, r.Takes p c site

theorem runs_of_turns (ps : List Pending) (h : r.Sound ps)
    (herrors : ∀ t ∈ r.turns ps, t.output.hasErrors = false) :
    ∃ r', Runs Clean r ps r' ∧ ps.foldlM step r = .ok r' := by
  induction ps generalizing r with
  | nil => exact ⟨r, .nil, rfl⟩
  | cons p ps ih =>
      obtain ⟨r₁, hstep, hr₁, -⟩ := sound_step h
      simp only [turns, hstep] at herrors
      obtain ⟨hhead, htail⟩ := List.forall_mem_cons.mp herrors
      obtain ⟨r₂, hruns, hsteps⟩ := ih hr₁ htail
      refine ⟨r₂, .cons ⟨hstep, takes_of_turn h hhead⟩ hruns, ?_⟩
      rw [List.foldlM_cons, hstep]
      exact hsteps

theorem steps_of_runs (h : Runs Clean r ps r') : ps.foldlM step r = .ok r' := by
  induction h with
  | nil => rfl
  | cons hstep _ ih =>
      rw [List.foldlM_cons, hstep.1]
      exact ih

/-- What a run has found so far, but for the order of what it found. -/
structure Sim (r u : DeclRun) : Prop where
  table : r.stage.site.table.Alike u.stage.site.table
  opened : ∀ name, r.stage.site.table.opened.count (some name) =
    u.stage.site.table.opened.count (some name)
  claimed : ∀ n, n ∈ r.stage.claimed.names ↔ n ∈ u.stage.claimed.names
  registry : Shuffled StateMachine.Reorders (fun _ _ => True) r.machines.items u.machines.items
  output : r.output.Reorders u.output

theorem Sim.refl (r : DeclRun) : r.Sim r :=
  ⟨.refl, fun _ => rfl, fun _ => Iff.rfl, .refl StateMachine.Reorders.refl _, .refl _⟩

theorem Sim.trans {v : DeclRun} (h : r.Sim u) (h' : u.Sim v) : r.Sim v :=
  ⟨h.table.trans h'.table, fun name => (h.opened name).trans (h'.opened name),
    fun n => (h.claimed n).trans (h'.claimed n), h.registry.trans h'.registry,
    h.output.trans h'.output⟩

theorem contains_eq_false (h : r.Sound ps) {name : String} :
    r.machines.contains name = false ↔ ∀ m ∈ r.machines.items, m.ident ≠ name := by
  rw [Bool.eq_false_iff, ne_eq, h.registry.contains_iff]
  simp

theorem Sound.shuffled (h : r.Sound ps) (hl : Shuffled Pending.Same Pending.Passes ps qs) :
    r.Sound qs := by
  refine ⟨h.site.shuffled ?_ ?_ hl, h.top, h.outer, h.registry, h.rosters⟩
  · rintro p q (rfl | ⟨d, d', rfl, rfl, -⟩) <;> rfl
  · rintro p q (rfl | ⟨d, d', rfl, rfl, -⟩) hp
    · exact hp
    · trivial

theorem Clean.sound (h : r.Clean p r') (hr : r.Sound (p :: ps)) : r'.Sound ps := by
  obtain ⟨r₁, hstep, hsound, -⟩ := sound_step hr
  rw [h.1] at hstep
  cases hstep
  exact hsound

/-- Runs that found the same so far find the same next. -/
theorem Sim.step (hr : r.Sound (p :: ps)) (hu : u.Sound (q :: qs)) (hsim : r.Sim u)
    (hpq : p.Same q) (h : r.Clean p r') : ∃ u', u.Clean q u' ∧ r'.Sim u' := by
  obtain ⟨hstep, c, site, ht⟩ := h
  have halike : r.stage.site.Alike u.stage.site := ⟨hsim.table, by rw [hr.top, hu.top]⟩
  obtain ⟨c', site', hc', hreorders, hsite⟩ := Pending.compile_blind hpq hr.top hu.top
    (Pending.blind_of_alike_count halike fun d _ => hsim.opened d.ident) hr.site hu.site
    ht.compile ht.flawless
  have ht' : u.Takes q c' site' := by
    refine ⟨fun d' hd' => ?_, fun n hn hmem => ?_, hc', hreorders.flawless⟩
    · obtain ⟨d, rfl, hident⟩ : ∃ d, p = .machine d ∧ d.ident = d'.ident := by
        rcases hpq with rfl | ⟨d, _, rfl, hq, members, -, rfl⟩
        · exact ⟨d', hd', rfl⟩
        · rw [hq] at hd'
          cases hd'
          exact ⟨d, rfl, rfl⟩
      rw [← hident]
      refine (contains_eq_false hu).mpr (hsim.registry.forall_mem ?_
        ((contains_eq_false hr).mp (ht.unique d rfl)))
      intro m m' hm hne
      rwa [← hm.ident]
    · exact ht.free n ((Pending.mem_outputFiles_same hpq n).mpr hn) ((hsim.claimed n).mpr hmem)
  obtain ⟨r₁, hstep₁, -, hleft, hadds⟩ := ht.step hr
  rw [hstep] at hstep₁
  cases hstep₁
  obtain ⟨u', hstep', -, hright, hadds'⟩ := ht'.step hu
  have houtput := hreorders.output p.decl q.decl r.stage.site.table u.stage.site.table
  refine ⟨u', ⟨hstep', c', site', ht'⟩, ?_, fun name => ?_, fun n => ?_, ?_, ?_⟩
  · rw [hleft, hright]
    exact (hsite halike).table
  · rw [hadds.opened, hadds'.opened, hsim.opened, Pending.opens_same hpq]
  · rw [hadds.claimed, hadds'.claimed, hsim.claimed, Pending.mem_outputFiles_same hpq]
  · rw [hadds.registry, hadds'.registry]
    exact hsim.registry.append StateMachine.Reorders.refl houtput.machines
  · rw [hadds.output, hadds'.output]
    exact hsim.output.append houtput

theorem Takes.ident {c : CompiledMachine} {site : Site} {d : MachineDecl Decl}
    (hr : r.Sound (.machine d :: ps)) (h : r.Takes (.machine d) (.machine c) site) :
    c.machine.ident = d.ident := by
  obtain ⟨-, -, -, -, hident⟩ := Pending.sound_compile hr.site hr.top
  obtain ⟨d', hd', heq, -⟩ := hident c (congrArg Prod.fst h.compile)
  cases hd'
  exact heq

/-- A name that a machine takes is not free for the next one. -/
theorem Takes.contains (h : r.Takes p c site) (hadds : r.Adds p c r')
    (hr : r.Sound (p :: ps)) (hr' : r'.Sound ps) (name : String) :
    r'.machines.contains name = false ↔
      r.machines.contains name = false ∧ ∀ d, p = .machine d → d.ident ≠ name := by
  rw [contains_eq_false hr', contains_eq_false hr, hadds.registry]
  simp only [List.mem_append]
  have hcompile := h.compile
  cases p with
  | func d =>
      obtain ⟨_, -, rfl⟩ := map_eq_ok.mp (congrArg Prod.fst hcompile)
      simp [Turn.output]
  | type d state =>
      obtain ⟨_, -, rfl⟩ := map_eq_ok.mp (congrArg Prod.fst hcompile)
      simp [Turn.output]
  | machine d =>
      rw [Pending.compile_machine hr.top] at hcompile
      obtain ⟨m, -, rfl⟩ := map_eq_ok.mp (congrArg Prod.fst hcompile)
      have hident := h.ident hr
      simp only [Turn.output, List.mem_singleton]
      constructor
      · intro hall
        refine ⟨fun m' hm' => hall m' (.inl hm'), ?_⟩
        rintro _ ⟨⟩
        rw [← hident]
        exact hall m.machine (.inr rfl)
      · rintro ⟨hall, hne⟩ m' (hm' | rfl)
        · exact hall m' hm'
        · rw [hident]
          exact hne d rfl

section Swap

variable {r₁ r₂ u₁ u₂ : DeclRun} {a b : Pending} {l : List Pending} {ca cb ca' cb' : Compiled}
  {s₁ s₂ : Site}

/-- Of two neighbours that may pass each other the second can have its turn first, and then the first
can have its turn. -/
theorem Takes.swap (hr : r.Sound (a :: b :: l)) (hp : a.Passes b) (ha : r.Takes a ca s₁)
    (hr₁ : r₁.Sound (b :: l)) (hs₁ : r₁.stage.site = s₁) (hadds : r.Adds a ca r₁)
    (hb : r₁.Takes b cb s₂) :
    ∃ ca' cb' v₁ v₂ u₁ u₂, r.Takes b cb' v₁ ∧ r.step b = .ok u₁ ∧ r.Adds b cb' u₁ ∧
      u₁.Sound (a :: l) ∧ u₁.Takes a ca' v₂ ∧ u₁.step a = .ok u₂ ∧ u₁.Adds a ca' u₂ ∧
      ca.Reorders ca' ∧ cb.Reorders cb' ∧ s₂.Alike u₂.stage.site := by
  have hr' : r.Sound (b :: a :: l) := hr.shuffled (.swap hp)
  have hcontains := ha.contains hadds hr hr₁
  have hne : ∀ d d', a = .machine d → b = .machine d' → d.ident ≠ d'.ident := fun d d' hd hd' =>
    ((hcontains d'.ident).mp (hb.unique d' hd')).2 d hd
  have hcompile := hb.compile
  rw [hs₁] at hcompile
  obtain ⟨ca', cb', v₁, v₂, hv₁, hv₂, hreordersa, hreordersb, halike⟩ :=
    Pending.compile_swap hr.top hr.site hr'.site hp hne ha.compile hcompile ha.flawless hb.flawless
  have hb' : r.Takes b cb' v₁ := ⟨fun d hd => ((hcontains d.ident).mp (hb.unique d hd)).1,
    fun n hn hmem => hb.free n hn ((hadds.claimed n).mpr (.inr hmem)), hv₁, hreordersb.flawless⟩
  obtain ⟨u₁, hstep₁, hu₁, hsite₁, hadds₁⟩ := hb'.step hr'
  have ha' : u₁.Takes a ca' v₂ := by
    refine ⟨fun d hd => ?_, fun n hn hmem => ?_, ?_, hreordersa.flawless⟩
    · exact (hb'.contains hadds₁ hr' hu₁ d.ident).mpr
        ⟨ha.unique d hd, fun d' hd' => (hne d d' hd hd').symm⟩
    · rcases (hadds₁.claimed n).mp hmem with hmem | hmem
      · exact hb.free n hmem ((hadds.claimed n).mpr (.inl hn))
      · exact ha.free n hn hmem
    · rw [hsite₁]
      exact hv₂
  obtain ⟨u₂, hstep₂, -, hsite₂, hadds₂⟩ := ha'.step hu₁
  rw [← hsite₂] at halike
  exact ⟨ca', cb', v₁, v₂, u₁, u₂, hb', hstep₁, hadds₁, hu₁, ha', hstep₂, hadds₂, hreordersa,
    hreordersb, halike⟩

theorem Adds.swap (h₁ : r.Adds a ca r₁) (h₂ : r₁.Adds b cb r₂) (h₁' : r.Adds b cb' u₁)
    (h₂' : u₁.Adds a ca' u₂) (halike : r₂.stage.site.table.Alike u₂.stage.site.table)
    (houtput : ((Turn.output ⟨a.decl, r.stage.site.table, .ok ca⟩).append
      (Turn.output ⟨b.decl, r₁.stage.site.table, .ok cb⟩)).Reorders
      ((Turn.output ⟨b.decl, r.stage.site.table, .ok cb'⟩).append
        (Turn.output ⟨a.decl, u₁.stage.site.table, .ok ca'⟩))) : r₂.Sim u₂ where
  table := halike
  opened := fun name => by
    rw [h₂.opened, h₁.opened, h₂'.opened, h₁'.opened]
    omega
  claimed := fun n => by
    rw [h₂.claimed, h₁.claimed, h₂'.claimed, h₁'.claimed]
    exact or_left_comm
  registry := by
    rw [h₂.registry, h₁.registry, h₂'.registry, h₁'.registry, List.append_assoc, List.append_assoc]
    exact houtput.machines.append_left StateMachine.Reorders.refl _
  output := by
    rw [h₂.output, h₁.output, h₂'.output, h₁'.output, Output.append_assoc, Output.append_assoc]
    exact (Output.Reorders.refl _).append houtput

/-- Two neighbours that may pass each other can have their turns in the other order. -/
theorem Sim.swap (hr : r.Sound (a :: b :: l)) (hp : a.Passes b) (ha : r.Clean a r₁)
    (hb : r₁.Clean b r₂) : ∃ u₁ u₂, r.Clean b u₁ ∧ u₁.Clean a u₂ ∧ r₂.Sim u₂ := by
  have hr₁ := ha.sound hr
  obtain ⟨hstepa, ca, s₁, hta⟩ := ha
  obtain ⟨hstepb, cb, s₂, htb⟩ := hb
  obtain ⟨_, hstep, -, hs₁, hadds₁⟩ := hta.step hr
  rw [hstepa] at hstep
  cases hstep
  obtain ⟨_, hstep, -, hs₂, hadds₂⟩ := htb.step hr₁
  rw [hstepb] at hstep
  cases hstep
  obtain ⟨ca', cb', v₁, v₂, u₁, u₂, htb', hstepu₁, hadds₁', hu₁, hta', hstepu₂, hadds₂', hreordersa,
    hreordersb, halike⟩ := hta.swap hr hp hr₁ hs₁ hadds₁ htb
  rw [← hs₂] at halike
  refine ⟨u₁, u₂, ⟨hstepu₁, cb', v₁, htb'⟩, ⟨hstepu₂, ca', v₂, hta'⟩,
    hadds₁.swap hadds₂ hadds₁' hadds₂' halike.table ?_⟩
  -- At most one of the two is a function, so the functions keep their order.
  have hfunctions : ∀ t t', (Turn.output ⟨a.decl, t, .ok ca'⟩).functions = [] ∨
      (Turn.output ⟨b.decl, t', .ok cb'⟩).functions = [] := by
    intro t t'
    rcases Pending.passes_not_func hp with hfunc | hfunc
    · exact .inl (Pending.functions_output hu₁.top hta'.compile hfunc _ _)
    · exact .inr (Pending.functions_output hr.top htb'.compile hfunc _ _)
  exact ((hreordersa.output _ _ _ _).append (hreordersb.output _ _ _ _)).trans
    (.append_comm (hfunctions _ _))

end Swap

/-- Declarations do not notice how those that are still to come are arranged. -/
theorem oblivious : Oblivious Clean Sound Sim Pending.Same Pending.Passes where
  same_refl := fun _ => .inl rfl
  sim_refl := Sim.refl
  sim_trans := Sim.trans
  inv_step := fun h hstep => hstep.sound h
  inv_shuffled := fun h hl => h.shuffled hl
  step_same := fun hr hu hsim hpq hstep => hsim.step hr hu hpq hstep
  step_swap := fun hr hp ha hb => Sim.swap hr hp ha hb

end DeclRun

/-! ### Sessions -/

/-- Declarations whose registration was a success may be rearranged as they could before. -/
theorem Rearranged.settle {ds ds' : List Decl} (h : Rearranged ds ds') (machine : Option String)
    (home : FrameId) : Shuffled Pending.Same Pending.Passes (ds.map (Decl.settle machine home))
      (ds'.map (Decl.settle machine home)) := by
  refine h.map ?_ ?_
  · rintro d d' (rfl | ⟨m, m', rfl, rfl, hm⟩)
    · exact .inl rfl
    · exact .inr ⟨m, m', rfl, rfl, hm⟩
  · rintro d d' (⟨type, rfl⟩ | ⟨type, rfl⟩ | ⟨⟨m, rfl⟩, m', rfl⟩)
    · exact .inl ⟨_, _, rfl⟩
    · exact .inr (.inl ⟨_, _, rfl⟩)
    · exact .inr (.inr ⟨⟨m, rfl⟩, m', rfl⟩)

/-- A declaration that compiled was not refused before. -/
theorem DeclRun.Takes.not_rejected {r : DeclRun} {p : Pending} {c : Compiled} {site : Site}
    (h : r.Takes p c site) : ¬p.Rejected := by
  rintro ⟨d, e, rfl⟩
  cases h.compile

namespace Session

variable {s s' : Session} {ds ds' : List Decl} {out : Output}

/-- In a list that compiles without errors each declaration has its turn without errors. -/
theorem runs_of_compile (hs : s.Sound) (hc : s.compile ds = .ok (s', out))
    (herrors : out.hasErrors = false) :
    ∃ r, Runs DeclRun.Clean (s.begin (Decl.predeclareAll s.table none ds).1)
      (Decl.predeclareAll s.table none ds).2 r ∧ r.output = out := by
  rw [output_of_compile hs hc] at herrors
  obtain ⟨r, hruns, hsteps⟩ :=
    DeclRun.runs_of_turns _ (sound_begin hs ds) (Turn.hasErrors_outputs.mp herrors)
  unfold compile at hc
  simp only [hsteps] at hc
  cases hc
  exact ⟨r, hruns, rfl⟩

/-- The types of a list that compiles without errors are new. -/
theorem new_of_runs {r : DeclRun} (h : Runs DeclRun.Clean
    (s.begin (Decl.predeclareAll s.table none ds).1) (Decl.predeclareAll s.table none ds).2 r) :
    s.table.New (ds.filterMap (Decl.symbol? none s.table.top.id)) := by
  refine Decl.new_of_predeclareAll none fun p hp => ?_
  obtain ⟨_, _, -, c, site, htakes⟩ := h.forall_mem p hp
  exact htakes.not_rejected

theorem compile_of_runs {r : DeclRun} (h : Runs DeclRun.Clean
    (s.begin (Decl.predeclareAll s.table none ds).1) (Decl.predeclareAll s.table none ds).2 r) :
    s.compile ds = .ok (r.session, r.output) := by
  unfold compile
  simp only [DeclRun.steps_of_runs h]
  rfl

/-- A rearranged list starts as the list does. -/
theorem sim_begin (h : (Decl.predeclareAll s.table none ds).1.Alike
    (Decl.predeclareAll s.table none ds').1) :
    DeclRun.Sim (s.begin (Decl.predeclareAll s.table none ds).1)
      (s.begin (Decl.predeclareAll s.table none ds').1) where
  table := h
  opened := fun name => by
    obtain ⟨-, -, hopened, -⟩ := Decl.predeclareAll_frame none s.table ds
    obtain ⟨-, -, hopened', -⟩ := Decl.predeclareAll_frame none s.table ds'
    rw [begin, begin, hopened, hopened']
  claimed := fun _ => Iff.rfl
  registry := .refl StateMachine.Reorders.refl _
  output := .refl _

/-- A list of declarations that compiles without errors does so when types are moved anywhere in it,
machines past each other, and types inside their machines. What it compiles into is the same, but for
the order of types, machines and warnings, and so are the units. -/
theorem compile_rearranged {config : Config} (hs : Reached config s)
    (hc : s.compile ds = .ok (s', out)) (herrors : out.hasErrors = false)
    (hl : Rearranged ds ds') :
    ∃ s'' out', s.compile ds' = .ok (s'', out') ∧ out'.hasErrors = false ∧ out.Reorders out' ∧
      out'.units = out.units := by
  obtain ⟨r, hruns, rfl⟩ := runs_of_compile hs.sound hc herrors
  have hrejected : ∀ p ∈ (Decl.predeclareAll s.table none ds).2, ¬p.Rejected := by
    intro p hp
    obtain ⟨_, _, -, c, site, ht⟩ := hruns.forall_mem p hp
    exact ht.not_rejected
  obtain ⟨halike, hpending, hpending'⟩ := Decl.predeclareAll_shuffled .refl rfl
    (by rintro d d' (rfl | ⟨m, m', rfl, rfl, -⟩) <;> rfl) hl hrejected
  have hbegin := sound_begin hs.sound ds
  have hbegin' := sound_begin hs.sound ds'
  have hshuffled := hl.settle none s.table.top.id
  rw [← hpending, ← hpending'] at hshuffled
  obtain ⟨r', hruns', hsim⟩ :=
    DeclRun.oblivious.runs hshuffled hbegin hbegin' (sim_begin halike) hruns
  have hnames : (r.output.unsortedUnits.map OutputUnit.name).Nodup := by
    rw [output_of_compile hs.sound hc]
    exact (names_unsortedUnits hs.sound ds).1
  refine ⟨r'.session, r'.output, compile_of_runs hruns', ?_, hsim.output,
    (hsim.output.units hnames).symm⟩
  rw [← hsim.output.hasErrors]
  exact herrors

/-- A function, and two machines, one with a type of its own, before and after a type that they use. -/
theorem compile_rearranged_prelude : ∃ s₀ s out, Session.start .prelude = .ok s₀ ∧
    s₀.compile [
      .func { returnType := { ident := "State" }, ident := "initial" },
      .machine { ident := "L1", members := [
        .func { returnType := { ident := "Line" }, ident := "next" }, .type { ident := "Line" }] },
      .machine { ident := "L2", members := [
        .func { returnType := { ident := "State" }, ident := "current" }] },
      .type { ident := "State", body := .enumeration ["I", "M"] }] = .ok (s, out) ∧
    ∃ s' out', s₀.compile [
      .type { ident := "State", body := .enumeration ["I", "M"] },
      .func { returnType := { ident := "State" }, ident := "initial" },
      .machine { ident := "L2", members := [
        .func { returnType := { ident := "State" }, ident := "current" }] },
      .machine { ident := "L1", members := [
        .type { ident := "Line" }, .func { returnType := { ident := "Line" }, ident := "next" }] }] =
        .ok (s', out') ∧
      out'.hasErrors = false ∧ out.Reorders out' ∧ out'.units = out.units := by
  have hrun : ((Session.start .prelude).toOption.bind fun s => (s.compile [
      .func { returnType := { ident := "State" }, ident := "initial" },
      .machine { ident := "L1", members := [
        .func { returnType := { ident := "Line" }, ident := "next" }, .type { ident := "Line" }] },
      .machine { ident := "L2", members := [
        .func { returnType := { ident := "State" }, ident := "current" }] },
      .type { ident := "State", body := .enumeration ["I", "M"] }]).toOption.map
        fun r => r.2.hasErrors) = some false := by decide +kernel
  obtain ⟨s₀, hs₀, hrun⟩ := Option.bind_eq_some_iff.mp hrun
  obtain ⟨⟨s, out⟩, hc, herrors⟩ := Option.map_eq_some_iff.mp hrun
  rw [toOption_eq_some] at hs₀ hc
  refine ⟨s₀, s, out, hs₀, hc, compile_rearranged (.start hs₀) hc herrors ?_⟩
  refine .of_types (.refl _) (Shuffled.trans
    (Rearranged.of_machines ?_ (.swap _ _ []) [.func _] [])
    (Rearranged.of_members ?_ [.func _, .machine _] []))
  · simp [Decl.IsMachine]
  · exact .of_types (.refl _) rfl

end Session

end Coherence
