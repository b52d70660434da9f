import Coherence.Proofs.UnitNames
/-!
# What holds at every turn

A property of sites that each declaration keeps holds whenever one has its turn, so what follows from it
for one turn follows for all turns of a run (`MemberRun.forall_turns`, `DeclRun.forall_turns`). Before a
turn of a member the machine has what came of the turns before it (`MemberRun.turns_split`).

The outermost frame holds types and functions that belong to no machine, and no variables
(`SymbolTable.FreeStanding`).
-/

namespace Coherence

open SymbolTable (Kept)

theorem Turn.outputs_append (ts us : List Turn) :
    outputs (ts ++ us) = (outputs ts).append (outputs us) := by
  induction ts with
  | nil => exact (Output.empty_append _).symm
  | cons t ts ih =>
      show t.output.append (outputs (ts ++ us)) = (t.output.append (outputs ts)).append (outputs us)
      rw [ih, Output.append_assoc]

namespace Turn

/-- What holds of the function or the type that a declaration compiles into holds of all functions and types
that its turn adds to the output. -/
theorem Answers.forall_output {parent : Option String} {t : Turn} (h : t.Answers parent)
    {P : Func → Prop} {Q : TypeDef → Prop}
    (hfunc : ∀ d f, t.decl = .func d → t.result = .ok (.func f) → ∀ m : Option StateMachine,
      m.map StateMachine.ident = parent → (d.toFunc { table := t.table, machine := m }).1 = .ok f → P f)
    (htype : ∀ d τ, t.decl = .type d → t.result = .ok (.type τ) → ∀ home,
      τ.symbol = { d.symbol parent with home } → Q τ) :
    (∀ f ∈ t.output.functions, P f) ∧ ∀ τ ∈ t.output.types, Q τ := by
  obtain ⟨decl, table, result⟩ := t
  cases result with
  | error e => exact ⟨List.forall_mem_nil _, List.forall_mem_nil _⟩
  | ok c =>
      have hanswer := h c rfl
      cases decl <;> cases c <;> try exact hanswer.elim
      case func.func d f =>
        obtain ⟨m, hm, hf⟩ := hanswer
        exact ⟨List.forall_mem_singleton.mpr (hfunc d f rfl rfl m hm hf), List.forall_mem_nil _⟩
      case type.type d τ =>
        obtain ⟨home, hsymbol⟩ := hanswer
        exact ⟨List.forall_mem_nil _, List.forall_mem_singleton.mpr (htype d τ rfl rfl home hsymbol)⟩
      case machine.machine d c => exact ⟨List.forall_mem_nil _, List.forall_mem_nil _⟩

/-- What comes of a turn belongs to the machine that the turn is taken in, and is spelled by its name. -/
theorem Answers.machine_output {parent : Option String} {t : Turn} (h : t.Answers parent) :
    (∀ f ∈ t.output.functions, f.machine = parent) ∧
      ∀ τ ∈ t.output.types, τ.symbol.machine = parent ∧ τ.symbol.spelling = none := by
  refine h.forall_output (fun d f _ _ m hm hf => ?_) fun d τ _ _ home hsymbol => ?_
  · rw [(FuncDecl.toFunc_eq_ok hf).2.2.1]
    exact hm
  · rw [hsymbol]
    exact ⟨rfl, rfl⟩

/-- What is in a part of the output comes of one turn. -/
theorem exists_of_mem_outputs {α : Type} (get : Output → List α) (hempty : get {} = [])
    (happend : ∀ o o', get (o.append o') = get o ++ get o') {ts : List Turn} {a : α}
    (ha : a ∈ get (outputs ts)) : ∃ t ∈ ts, a ∈ get t.output := by
  induction ts with
  | nil =>
      rw [show outputs [] = {} from rfl, hempty] at ha
      cases ha
  | cons t ts ih =>
      rw [show outputs (t :: ts) = t.output.append (outputs ts) from rfl, happend] at ha
      rcases List.mem_append.mp ha with ha | ha
      · exact ⟨t, List.mem_cons_self, ha⟩
      · obtain ⟨u, hu, h⟩ := ih ha
        exact ⟨u, List.mem_cons_of_mem _ hu, h⟩

/-- What holds of the functions and types that come of each turn holds of all. -/
theorem forall_outputs {P : Func → Prop} {Q : TypeDef → Prop} {ts : List Turn}
    (h : ∀ t ∈ ts, (∀ f ∈ t.output.functions, P f) ∧ ∀ τ ∈ t.output.types, Q τ) :
    (∀ f ∈ (outputs ts).functions, P f) ∧ ∀ τ ∈ (outputs ts).types, Q τ := by
  constructor
  · intro f hf
    obtain ⟨t, ht, hf⟩ := exists_of_mem_outputs Output.functions rfl (fun _ _ => rfl) hf
    exact (h t ht).1 f hf
  · intro τ hτ
    obtain ⟨t, ht, hτ⟩ := exists_of_mem_outputs Output.types rfl (fun _ _ => rfl) hτ
    exact (h t ht).2 τ hτ

theorem machine_outputs {parent : Option String} {ts : List Turn} (h : ∀ t ∈ ts, t.Answers parent) :
    (∀ f ∈ (outputs ts).functions, f.machine = parent) ∧
      ∀ τ ∈ (outputs ts).types, τ.symbol.machine = parent ∧ τ.symbol.spelling = none :=
  forall_outputs fun t ht => (h t ht).machine_output

theorem exists_of_mem_machines {ts : List Turn} {m : StateMachine}
    (hm : m ∈ (outputs ts).machines) (hanswers : ∀ t ∈ ts, t.Answers none) :
    ∃ t ∈ ts, ∃ (d : MachineDecl Decl) (c : CompiledMachine), t.decl = .machine d ∧
      t.result = .ok (.machine c) ∧ c.machine = m ∧ (d.compile t.table).1 = .ok c := by
  obtain ⟨t, ht, hm⟩ := exists_of_mem_outputs Output.machines rfl (fun _ _ => rfl) hm
  unfold Turn.output at hm
  split at hm
  · cases hm
  · cases hm
  · rename_i c hr
    have hanswer := hanswers t ht _ hr
    cases hd : t.decl with
    | func d => rw [hd] at hanswer; exact hanswer.elim
    | type d => rw [hd] at hanswer; exact hanswer.elim
    | machine d =>
        rw [hd] at hanswer
        exact ⟨t, ht, d, c, hd, hr, (List.mem_singleton.mp hm).symm, hanswer.2⟩
  · cases hm

end Turn

/-- Registering types hides nothing but types. -/
theorem Decl.lookup_predeclareAll {kind : SymbolKind} (hk : kind ≠ .type) (machine : Option String)
    (t : SymbolTable) (ds : List Decl) (name : String) :
    (predeclareAll t machine ds).1.lookup name kind = t.lookup name kind := by
  induction ds generalizing t with
  | nil => rfl
  | cons d ds ih =>
      rw [predeclareAll_cons, ih]
      cases d with
      | func d => rfl
      | machine d => rfl
      | type d =>
          simp only [predeclare, TypeDecl.predeclare]
          split
          · rename_i hd
            obtain ⟨-, rfl⟩ := SymbolTable.declare_eq_ok.mp hd
            rw [SymbolTable.lookup_bind, if_neg]
            intro heq
            exact hk (congrArg Prod.snd heq)
          · rfl

/-! ### Members -/

/-- A declaration whose units are taken leaves everything; others are compiled. -/
theorem Stage.attempt_cases (compile : Site → Except CompileError Compiled × Site) (s : Stage)
    (d : Decl) : (∃ e, s.attempt compile d = (.error e, s)) ∨
      ∃ claimed, s.attempt compile d = ((compile s.site).1, ⟨(compile s.site).2, claimed⟩) := by
  unfold attempt
  split
  · exact .inl ⟨_, rfl⟩
  · exact .inr ⟨_, rfl⟩

namespace MemberRun

variable {r : MemberRun} {p : Pending} {ps : List Pending}

theorem turns_cons (h : r.stage.site.Sound (p :: ps)) :
    ∃ r' : MemberRun, r.turns (p :: ps) = ⟨p.decl, r.stage.site.table, (r.attempt p).1⟩ :: r'.turns ps ∧
      r'.stage = (r.attempt p).2 ∧ r'.stage.site.Sound ps := by
  obtain ⟨r', hstep, hstage, hsound, -⟩ := sound_step h
  exact ⟨r', by simp only [turns, hstep], hstage, hsound⟩

theorem forall_turns {P : Site → Prop} {Q : Turn → Prop}
    (hstep : ∀ s p ps, Site.Sound s (p :: ps) → P s →
      P (p.compileMember s).2 ∧ Q ⟨p.decl, s.table, (p.compileMember s).1⟩)
    (hclaimed : ∀ s d e, P s → Q ⟨d, s.table, .error e⟩)
    (h : r.stage.site.Sound ps) (hr : P r.stage.site) : ∀ u ∈ r.turns ps, Q u := by
  induction ps generalizing r with
  | nil => simp [turns]
  | cons p ps ih =>
      have hnow : P (r.attempt p).2.site ∧ Q ⟨p.decl, r.stage.site.table, (r.attempt p).1⟩ := by
        obtain ⟨e, hattempt⟩ | ⟨claimed, hattempt⟩ := r.stage.attempt_cases p.compileMember p.decl
        · rw [attempt, hattempt]
          exact ⟨hr, hclaimed _ _ e hr⟩
        · rw [attempt, hattempt]
          exact hstep _ p ps h hr
      obtain ⟨r', hturns, hstage, hsound⟩ := turns_cons h
      rw [hturns]
      intro u hu
      rcases List.mem_cons.mp hu with rfl | hu
      · exact hnow.2
      · refine ih hsound ?_ u hu
        rw [hstage]
        exact hnow.1

/-- Before a turn the machine has what came of the turns before it, and the frames are those that the
members started in. -/
theorem turns_split {m : StateMachine} {before after : List Turn} {u : Turn}
    (h : r.stage.site.Sound ps) (hm : r.stage.site.machine = some m)
    (hu : r.turns ps = before ++ u :: after) :
    ∃ (r' : MemberRun) (todo : List Pending) (m' : StateMachine), r'.stage.site.Sound todo ∧ r'.turns todo = u :: after ∧
      r'.stage.site.machine = some m' ∧ m.Gains (Turn.outputs before) m' ∧
      r'.stage.site.table.frames = r.stage.site.table.frames := by
  induction before generalizing r ps m with
  | nil => exact ⟨r, ps, m, h, hu, hm, .refl rfl rfl, rfl⟩
  | cons t before ih =>
      cases ps with
      | nil => cases hu
      | cons p ps =>
          obtain ⟨r₁, hstep, hstage, hr₁, -⟩ := sound_step h
          obtain ⟨m₁, hm₁, hgains₁, -⟩ := gains_step h hm
          have hinside := inside_step hm p (h.awaits.settled p List.mem_cons_self)
          rw [hstep] at hm₁ hinside
          simp only [turns, hstep, List.cons_append, List.cons.injEq] at hu
          obtain ⟨rfl, hrest⟩ := hu
          obtain ⟨r', todo, m', hr', hturns, hm', hgains, hframes⟩ := ih hr₁ hm₁ hrest
          exact ⟨r', todo, m', hr', hturns, hm', hgains₁.trans hgains,
            hframes.trans hinside.table.frames⟩

end MemberRun

/-! ### Declarations at top level -/

namespace DeclRun

variable {r : DeclRun} {p : Pending} {ps : List Pending}

theorem attempt_cases (r : DeclRun) (p : Pending) : (∃ e, r.attempt p = (.error e, r.stage)) ∨
    ∃ claimed, r.attempt p =
      ((p.compile r.stage.site).1, ⟨(p.compile r.stage.site).2, claimed⟩) := by
  unfold attempt
  split
  · exact .inl ⟨_, rfl⟩
  · exact r.stage.attempt_cases p.compile p.decl

theorem machines_record {r' : DeclRun} {d : Decl} {e : CompileError} (h : r.record d e = .ok r') :
    r'.machines = r.machines := by
  unfold record at h
  split at h
  · cases h
  · cases h
    rfl

/-- What declarations keep holds at all their turns and after them. -/
theorem forall_turns {P : Site → Prop} {Q : Turn → Prop}
    (hstep : ∀ s p ps, Site.Sound s (p :: ps) → s.machine = none → P s →
      P (p.compile s).2 ∧ Q ⟨p.decl, s.table, (p.compile s).1⟩)
    (hclaimed : ∀ s d e, P s → Q ⟨d, s.table, .error e⟩)
    (h : r.Sound ps) (hr : P r.stage.site) :
    (∀ u ∈ r.turns ps, Q u) ∧ ∀ r', ps.foldlM step r = .ok r' → P r'.stage.site := by
  induction ps generalizing r with
  | nil =>
      refine ⟨by simp [turns], ?_⟩
      rintro r' ⟨⟩
      exact hr
  | cons p ps ih =>
      have hnow : P (r.attempt p).2.site ∧ Q (r.turn p) := by
        unfold turn
        obtain ⟨e, hattempt⟩ | ⟨claimed, hattempt⟩ := r.attempt_cases p
        · rw [hattempt]
          exact ⟨hr, hclaimed _ _ e hr⟩
        · rw [hattempt]
          exact hstep _ p ps h.site h.top hr
      obtain ⟨r₁, hr₁, hsound, hstage, -⟩ := sound_step h
      rw [← hstage] at hnow
      obtain ⟨hturns, hlast⟩ := ih hsound hnow.1
      refine ⟨?_, fun r' hr' => ?_⟩
      · simp only [turns, hr₁]
        exact List.forall_mem_cons.mpr ⟨hnow.2, hturns⟩
      · rw [List.foldlM_cons, hr₁] at hr'
        exact hlast r' hr'

end DeclRun

/-! ### The outermost frame -/

/-- The symbol belongs to no machine and to no body. -/
def Symbol.FreeStanding : Symbol → Prop
  | .type τ => τ.machine = none
  | .func f => f.machine = none
  | .var _ => False

/-- The outermost frame alone is open, and all in it stands free. -/
structure SymbolTable.FreeStanding (t : SymbolTable) : Prop where
  outer : t.outer = []
  symbols : ∀ e ∈ t.top.symbols, e.2.FreeStanding

namespace SymbolTable.FreeStanding

variable {t u : SymbolTable}

theorem initial : initial.FreeStanding where
  outer := rfl
  symbols := by
    intro e he
    rw [List.mem_singleton.mp he]
    rfl

theorem bind (h : t.FreeStanding) {s : Symbol} (hs : s.FreeStanding) : (t.bind s).FreeStanding where
  outer := h.outer
  symbols := by
    intro e he
    rcases List.mem_cons.mp he with rfl | he
    · exact hs
    · exact h.symbols e he

theorem kept {owner : Option String} {touched : TypeSymbol.Key → Prop} (h : t.FreeStanding)
    (hk : Kept owner touched t u) : u.FreeStanding where
  outer := hk.outer.trans h.outer
  symbols := by
    rw [hk.top]
    exact h.symbols

theorem of_lookup (h : t.FreeStanding) {name : String} {kind : SymbolKind} {s : Symbol}
    (hs : t.lookup name kind = some s) : s.FreeStanding := by
  rw [lookup_eq_or, h.outer, List.findSome?_nil, Option.or_none] at hs
  obtain ⟨l₁, l₂, hsplit, -⟩ := List.lookup_eq_some_iff.mp hs
  exact h.symbols ((name, kind), s) (by simp [hsplit])

end SymbolTable.FreeStanding

theorem Decl.freeStanding_predeclareAll {t : SymbolTable} (h : t.FreeStanding) (ds : List Decl) :
    (predeclareAll t none ds).1.FreeStanding := by
  induction ds generalizing t with
  | nil => exact h
  | cons d ds ih =>
      refine ih ?_
      cases d with
      | func d => exact h
      | machine d => exact h
      | type d =>
          simp only [TypeDecl.predeclare]
          split
          · rename_i hd
            obtain ⟨-, rfl⟩ := SymbolTable.declare_eq_ok.mp hd
            exact h.bind rfl
          · exact h

theorem Pending.freeStanding_compile {s : Site} {p : Pending} {ps : List Pending}
    (hs : s.Sound (p :: ps)) (hm : s.machine = none) (h : s.table.FreeStanding) :
    (p.compile s).2.table.FreeStanding := by
  cases p with
  | func d =>
      show (d.compile s).2.table.FreeStanding
      obtain ⟨u, hk, hu | ⟨f, hf, hu⟩⟩ := d.table_compile s <;> rw [hu]
      · exact h.kept hk
      · obtain ⟨-, -, hmachine, -⟩ := FuncDecl.toFunc_eq_ok hf
        rw [Site.owner_eq_none.mpr hm] at hmachine
        exact (h.kept hk).bind hmachine
  | machine d =>
      rw [compile_machine hm]
      exact h.kept (d.kept_compile s.table)
  | type d state =>
      cases state with
      | pending => exact (hs.awaits.settled _ List.mem_cons_self).elim
      | rejected e => exact h
      | declared type => exact h.kept (TypeDecl.kept_compileDeclared s type)

namespace Session

theorem freeStanding_bindBuiltins {t u : SymbolTable} {bs : List BuiltinType} (h : t.FreeStanding)
    (hu : bindBuiltins t bs = .ok u) : u.FreeStanding := by
  induction bs generalizing t with
  | nil =>
      cases hu
      exact h
  | cons b bs ih =>
      obtain ⟨v, hv, hu⟩ := bind_eq_ok.mp hu
      obtain ⟨-, rfl⟩ := SymbolTable.declare_eq_ok.mp hv
      refine ih ?_ hu
      exact h.bind rfl

variable {s : Session}

/-- Nothing but free-standing declarations is bound while a list is compiled, nor after it. -/
theorem freeStanding_turns (hs : s.Sound) (h : s.table.FreeStanding) (ds : List Decl) :
    (∀ u ∈ s.turns ds, u.table.FreeStanding) ∧
      ∀ s' out, s.compile ds = .ok (s', out) → s'.table.FreeStanding := by
  obtain ⟨hturns, hlast⟩ := DeclRun.forall_turns
    (P := fun s => s.table.FreeStanding) (Q := fun u => u.table.FreeStanding)
    (fun _ _ _ hs hm h => ⟨Pending.freeStanding_compile hs hm h, h⟩) (fun _ _ _ h => h)
    (sound_begin hs ds) (Decl.freeStanding_predeclareAll h ds)
  refine ⟨hturns, fun s' out hc => ?_⟩
  unfold compile at hc
  obtain ⟨r, hr, heq⟩ := bind_eq_ok.mp hc
  cases heq
  exact hlast r hr

theorem Reached.freeStanding {config : Config} (h : Reached config s) : s.table.FreeStanding := by
  induction h with
  | start hs =>
      obtain ⟨t, ht, heq⟩ := bind_eq_ok.mp hs
      cases heq
      exact freeStanding_bindBuiltins SymbolTable.FreeStanding.initial ht
  | compile hreached hc ih => exact (freeStanding_turns hreached.sound ih _).2 _ _ hc

end Session

end Coherence
