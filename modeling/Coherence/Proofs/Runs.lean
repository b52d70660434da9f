import Coherence.Proofs.Members
/-!
# Runs over lists of declarations

A `Turn` is one declaration with the symbol table that it found and the result that it had. The
turns of a list say all about its output: this is their contributions one after another
(`Session.compile_eq`). What holds of a run between declarations (`DeclRun.Sound`) holds of all runs
of a session, whatever it was given before (`Session.Reached.sound`).
-/

namespace Coherence

/-! ### Turns -/

/-- The output of two runs one after the other. -/
def Output.append (o o' : Output) : Output where
  functions := o.functions ++ o'.functions
  types := o.types ++ o'.types
  machines := o.machines ++ o'.machines
  diagnostics := o.diagnostics ++ o'.diagnostics

/-- One declaration's turn: the symbol table that it finds, and what comes of it. -/
structure Turn where
  decl : Decl
  table : SymbolTable
  result : Except CompileError Compiled

/-- What a turn adds to the output. -/
def Turn.output (t : Turn) : Output :=
  match t.result with
  | .ok (.func f) => { functions := [f], diagnostics := f.warning?.toList }
  | .ok (.type d) => { types := [d] }
  | .ok (.machine c) => {
      machines := [c.machine]
      diagnostics := (c.errors.map fun e => .ofError e t.decl.location) ++
        c.machine.functions.filterMap Func.warning? }
  | .error e => { diagnostics := [.ofError ⟨t.decl.ident, e⟩ t.decl.location] }

/-- What turns add to the output together. -/
def Turn.outputs (ts : List Turn) : Output := (ts.map Turn.output).foldr Output.append {}

namespace Output

theorem append_assoc (o₁ o₂ o₃ : Output) : (o₁.append o₂).append o₃ = o₁.append (o₂.append o₃) := by
  simp [append, List.append_assoc]

theorem append_empty (o : Output) : o.append {} = o := by simp [append]

theorem empty_append (o : Output) : ({} : Output).append o = o := by simp [append]

end Output

namespace MemberRun

def turns (r : MemberRun) : List Pending → List Turn
  | [] => []
  | p :: ps => ⟨p.decl, r.stage.site.table, (r.attempt p).1⟩ :: (r.step p).2.turns ps

end MemberRun

/-- The turns of a machine's members, when the machine finds this table. -/
def MachineDecl.turns (t : SymbolTable) (d : MachineDecl Decl) : List Turn :=
  (d.start (d.inner t).1).turns (d.inner t).2

namespace DeclRun

/-- The turn of the next declaration. -/
def turn (r : DeclRun) (p : Pending) : Turn := ⟨p.decl, r.stage.site.table, (r.attempt p).1⟩

/-- The turns of declarations, up to the one that ends the run. -/
def turns (r : DeclRun) : List Pending → List Turn
  | [] => []
  | p :: ps => r.turn p :: match r.step p with
    | .ok r' => r'.turns ps
    | .error _ => []

end DeclRun

namespace Session

/-- The turns of a list of declarations. -/
def turns (s : Session) (ds : List Decl) : List Turn :=
  let (table, pending) := Decl.predeclareAll s.table none ds
  (s.begin table).turns pending

/-- Compiles lists of declarations one after another. -/
def compileAll (s : Session) : List (List Decl) → Except CompileError (Session × List Output)
  | [] => .ok (s, [])
  | ds :: rest => do
    let (s, output) ← s.compile ds
    let (s, outputs) ← s.compileAll rest
    return (s, output :: outputs)

/-- A session as it can be after some lists of declarations. -/
inductive Reached (config : Config) : Session → Prop
  | start {s} : Session.start config = .ok s → Reached config s
  | compile {s s' ds output} : Reached config s → s.compile ds = .ok (s', output) → Reached config s'

end Session

/-! ### One turn -/

namespace Pending

variable {s : Site} {p : Pending} {ps : List Pending}

theorem compileMember_ne_machine (s : Site) (p : Pending) (c : CompiledMachine) :
    (p.compileMember s).1 ≠ .ok (.machine c) := by
  intro h
  cases p with
  | func d =>
      obtain ⟨_, -, h⟩ := map_eq_ok.mp h
      cases h
  | type d state =>
      obtain ⟨_, -, h⟩ := map_eq_ok.mp h
      cases h
  | machine d => cases h

theorem compile_eq_compileMember (hp : ∀ d, p ≠ .machine d) (s : Site) :
    p.compile s = p.compileMember s := by
  cases p with
  | machine d => exact absurd rfl (hp d)
  | func d => rfl
  | type d state => rfl

theorem compile_machine (hm : s.machine = none) (d : MachineDecl Decl) :
    (Pending.machine d).compile s =
      ((d.compile s.table).1.map .machine, { s with table := (d.compile s.table).2 }) := by
  unfold compile
  rw [hm]

/-- A declaration at top level ends its turn harmlessly and leaves a sound site at top level. A
machine keeps its name. -/
theorem sound_compile (h : s.Sound (p :: ps)) (hm : s.machine = none) :
    Harmless (p.compile s).1 ∧ (p.compile s).2.Sound ps ∧ (p.compile s).2.machine = none ∧
      (p.compile s).2.table.outer = s.table.outer ∧
      ∀ c, (p.compile s).1 = .ok (.machine c) →
        ∃ d, p = .machine d ∧ c.machine.ident = d.ident ∧ c.machine.roster.Valid := by
  by_cases hp : ∀ d, p ≠ .machine d
  · rw [compile_eq_compileMember hp]
    obtain ⟨hharmless, hsound⟩ := sound_compileMember h
    obtain ⟨houter, howner⟩ := outer_compileMember p (h.awaits.settled p List.mem_cons_self)
    rw [Site.owner_eq_none.mpr hm] at howner
    exact ⟨hharmless, hsound, Site.owner_eq_none.mp howner, houter,
      fun c hc => absurd hc (compileMember_ne_machine s p c)⟩
  · obtain ⟨d, rfl⟩ : ∃ d, p = .machine d := by simpa using hp
    obtain ⟨c, u, hc, hident, hvalid, hu, hk⟩ := MachineDecl.compile_succeeds h.table d
    rw [compile_machine hm, hc]
    refine ⟨.ok _, h.kept hk hu h.roster rfl ?_, hm, hk.outer, ?_⟩
    · -- The types that wait belong to the frame around the machine's.
      intro type hmem heq
      obtain ⟨q, hq, hs⟩ := List.mem_filterMap.mp hmem
      have hhome := home_of_symbol? (h.awaits.settled q (List.mem_cons_of_mem _ hq)) hs
      have hopened := h.table.opened
      rw [← hhome, show type.home = d.home s.table from heq] at hopened
      exact absurd hopened (Nat.lt_irrefl _)
    · rintro c' hc'
      cases hc'
      exact ⟨d, rfl, hident, hvalid⟩

end Pending

/-! ### Runs -/

/-- What holds of a run between declarations, of which these are still to come. -/
structure DeclRun.Sound (r : DeclRun) (todo : List Pending) : Prop where
  site : r.stage.site.Sound todo
  top : r.stage.site.machine = none
  outer : r.stage.site.table.outer = []
  registry : r.machines.Valid
  rosters : ∀ m ∈ r.machines.items, m.roster.Valid

namespace DeclRun

variable {r : DeclRun} {p : Pending} {ps : List Pending}

theorem harmless_checkUnique (r : DeclRun) (d : Decl) : Harmless (r.checkUnique d) := by
  cases d with
  | func d => exact .ok _
  | type d => exact .ok _
  | machine d =>
      rw [checkUnique, MachineRegistry.checkUnique]
      split
      · exact .error rfl
      · exact .ok _

theorem contains_of_checkUnique {d : MachineDecl Decl} {u : Unit}
    (h : r.checkUnique (.machine d) = .ok u) : r.machines.contains d.ident = false := by
  rw [checkUnique, MachineRegistry.checkUnique] at h
  split at h
  · cases h
  · rename_i hc
    exact Bool.eq_false_iff.mpr hc

theorem sound_attempt (h : r.Sound (p :: ps)) :
    Harmless (r.attempt p).1 ∧ Sound { r with stage := (r.attempt p).2 } ps ∧
      ∀ c, (r.attempt p).1 = .ok (.machine c) →
        r.machines.contains c.machine.ident = false ∧ c.machine.roster.Valid := by
  have hskip : Sound r ps := ⟨h.site.skip, h.top, h.outer, h.registry, h.rosters⟩
  unfold attempt
  split
  · rename_i hunique
    exact ⟨.error (r.harmless_checkUnique _ _ hunique), hskip, fun c hc => by cases hc⟩
  · rename_i hunique
    unfold Stage.attempt
    split
    · rename_i hclaim
      exact ⟨.error (harmless_claimOutputs _ _ _ _ hclaim), hskip, fun c hc => by cases hc⟩
    · obtain ⟨hharmless, hsound, hmachine, houter, hc⟩ := Pending.sound_compile h.site h.top
      refine ⟨hharmless, ⟨hsound, hmachine, houter.trans h.outer, h.registry, h.rosters⟩,
        fun c hok => ?_⟩
      obtain ⟨d, rfl, hident, hvalid⟩ := hc c hok
      rw [hident]
      exact ⟨contains_of_checkUnique hunique, hvalid⟩

/-- The machines that a turn compiles get registered. -/
theorem register_of_attempt (h : r.Sound (p :: ps)) {c : CompiledMachine}
    (hc : (r.attempt p).1 = .ok (.machine c)) :
    ∃ registry, r.machines.register c.machine = .ok registry ∧ registry.Valid ∧
      (∀ m ∈ registry.items, m.roster.Valid) ∧
      registry.items = r.machines.items ++ [c.machine] := by
  obtain ⟨-, -, hmachine⟩ := sound_attempt h
  obtain ⟨hfree, hvalid⟩ := hmachine c hc
  have hadd : r.machines.add? c.machine = some _ := Roster.add?_eq_some.mpr ⟨hfree, rfl⟩
  refine ⟨_, MachineRegistry.register_eq_ok.mpr hadd, h.registry.add? hadd, ?_, rfl⟩
  intro m hm
  rcases List.mem_append.mp hm with hm | hm
  · exact h.rosters m hm
  · rw [List.mem_singleton.mp hm]
    exact hvalid

/-- A turn adds its part to the output and its machine to the registry. -/
theorem sound_step (h : r.Sound (p :: ps)) :
    ∃ r', r.step p = .ok r' ∧ r'.Sound ps ∧ r'.stage = (r.attempt p).2 ∧
      r'.output = r.output.append (r.turn p).output ∧
      r'.machines.items = r.machines.items ++ (r.turn p).output.machines := by
  obtain ⟨hharmless, hsound, -⟩ := sound_attempt h
  have hregister := fun c => register_of_attempt h (c := c)
  have hdepth : (r.attempt p).2.site.table.depth = 1 := by
    have houter : (r.attempt p).2.site.table.outer = [] := hsound.outer
    simp [SymbolTable.depth, SymbolTable.frames, houter]
  unfold step turn Turn.output
  cases ha : r.attempt p with
  | mk result stage =>
      rw [ha] at hharmless hsound hdepth hregister
      dsimp only at hharmless hsound hdepth hregister ⊢
      rw [if_neg (by simp [hdepth])]
      have hrest : ∀ output, Sound { r with stage, output } ps := fun _ =>
        ⟨hsound.site, hsound.top, hsound.outer, hsound.registry, hsound.rosters⟩
      cases result with
      | error e =>
          simp only [settle, record, hharmless e rfl, Bool.false_eq_true, if_false]
          exact ⟨_, rfl, hrest _, rfl, by simp [Output.report, Output.append], by simp⟩
      | ok c =>
          cases c with
          | func f =>
              exact ⟨_, rfl, hrest _, rfl, by simp [Output.report, Output.append], by simp⟩
          | type d =>
              exact ⟨_, rfl, hrest _, rfl, by simp [Output.append], by simp⟩
          | machine c =>
              obtain ⟨registry, hreg, hvalid, hrosters, hitems⟩ := hregister c rfl
              simp only [settle, add, hreg]
              exact ⟨_, rfl, ⟨hsound.site, hsound.top, hsound.outer, hvalid, hrosters⟩, rfl,
                by simp [Output.report, Output.append], hitems⟩

theorem sound_done (done : List Pending) (h : r.Sound (done ++ ps)) :
    ∃ r', done.foldlM step r = .ok r' ∧ r'.Sound ps := by
  induction done generalizing r with
  | nil => exact ⟨r, rfl, h⟩
  | cons p done ih =>
      obtain ⟨r₁, hstep, hr₁, -⟩ := sound_step h
      obtain ⟨r₂, hsteps, hr₂⟩ := ih hr₁
      refine ⟨r₂, ?_, hr₂⟩
      rw [List.foldlM_cons, hstep]
      exact hsteps

theorem sound_steps (ps : List Pending) (h : r.Sound ps) :
    ∃ r', ps.foldlM step r = .ok r' ∧ r'.Sound [] ∧
      r'.output = r.output.append (Turn.outputs (r.turns ps)) ∧
      r'.machines.items = r.machines.items ++ (Turn.outputs (r.turns ps)).machines := by
  induction ps generalizing r with
  | nil => exact ⟨r, rfl, h, (Output.append_empty _).symm, (List.append_nil _).symm⟩
  | cons p ps ih =>
      obtain ⟨r₁, hstep, hr₁, -, hout₁, hitems₁⟩ := sound_step h
      obtain ⟨r₂, hsteps, hr₂, hout₂, hitems₂⟩ := ih hr₁
      have hturns : r.turns (p :: ps) = r.turn p :: r₁.turns ps := by simp only [turns, hstep]
      refine ⟨r₂, ?_, hr₂, ?_, ?_⟩
      · rw [List.foldlM_cons, hstep]
        exact hsteps
      · rw [hout₂, hout₁, Output.append_assoc, hturns]
        rfl
      · rw [hitems₂, hitems₁, List.append_assoc, hturns]
        rfl

end DeclRun

/-! ### Sessions -/

/-- What holds of a session between lists of declarations. -/
structure Session.Sound (s : Session) : Prop where
  table : s.table.Sound
  outer : s.table.outer = []
  registry : s.machines.Valid
  rosters : ∀ m ∈ s.machines.items, m.roster.Valid

namespace Session

theorem sound_bindBuiltins {t u : SymbolTable} {bs : List BuiltinType} (ht : t.Sound)
    (h : bindBuiltins t bs = .ok u) : u.Sound ∧ u.outer = t.outer := by
  induction bs generalizing t with
  | nil =>
      cases h
      exact ⟨ht, rfl⟩
  | cons b bs ih =>
      obtain ⟨v, hv, h⟩ := bind_eq_ok.mp h
      obtain ⟨-, rfl⟩ := SymbolTable.declare_eq_ok.mp hv
      exact ih (t := t.bind _) (ht.bind _) h

theorem sound_start {config : Config} {s : Session} (h : Session.start config = .ok s) : s.Sound := by
  obtain ⟨t, ht, h⟩ := bind_eq_ok.mp h
  cases h
  obtain ⟨hsound, houter⟩ := sound_bindBuiltins SymbolTable.Sound.initial ht
  exact ⟨hsound, houter, Roster.valid_empty, fun _ hm => by cases hm⟩

variable {s : Session}

theorem sound_begin (h : s.Sound) (ds : List Decl) :
    (s.begin (Decl.predeclareAll s.table none ds).1).Sound (Decl.predeclareAll s.table none ds).2 where
  site := {
    table := Decl.sound_predeclareAll none h.table ds
    roster := by
      rintro _ ⟨⟩
    awaits := Decl.awaits_predeclareAll none h.table ds }
  top := rfl
  outer := (Decl.predeclareAll_frame none s.table ds).1.trans h.outer
  registry := h.registry
  rosters := h.rosters

/-- A list of declarations is compiled to its end, and its turns make up the output. -/
theorem compile_eq (h : s.Sound) (ds : List Decl) :
    ∃ s', s.compile ds = .ok (s', Turn.outputs (s.turns ds)) ∧ s'.Sound ∧
      s'.machines.items = s.machines.items ++ (Turn.outputs (s.turns ds)).machines := by
  obtain ⟨r, hr, hsound, hout, hitems⟩ := DeclRun.sound_steps _ (sound_begin h ds)
  rw [show (s.begin _).output = {} from rfl, Output.empty_append] at hout
  refine ⟨r.session, ?_,
    ⟨hsound.site.table, hsound.outer, hsound.registry, hsound.rosters⟩, hitems⟩
  unfold compile
  simp only [hr]
  exact congrArg (fun o => Except.ok (r.session, o)) hout

theorem output_of_compile {s' : Session} {ds : List Decl} {out : Output} (h : s.Sound)
    (hc : s.compile ds = .ok (s', out)) : out = Turn.outputs (s.turns ds) := by
  obtain ⟨_, hcompile, -⟩ := compile_eq h ds
  rw [hcompile] at hc
  cases hc
  rfl

theorem Reached.sound {config : Config} (h : Reached config s) : s.Sound := by
  induction h with
  | start hs => exact sound_start hs
  | compile _ hc ih =>
      obtain ⟨s', hs', hsound, -⟩ := compile_eq ih _
      rw [hs'] at hc
      cases hc
      exact hsound

end Session

end Coherence
