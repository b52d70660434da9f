import Coherence.Proofs.Harmless
/-!
# Members of a machine

A site is `Sound` if its symbol table is and its machine finds all its functions, and if its table
awaits the declarations whose turn is still to come. Compiling one of them is harmless and leaves a
sound site (`Pending.sound_compileMember`); so the members of a machine are all compiled, and the
machine itself never fails (`MachineDecl.compile_succeeds`).
-/

namespace Coherence

open SymbolTable (Kept)

/-- What holds of a site between declarations, of which these are still to come. -/
structure Site.Sound (s : Site) (todo : List Pending) : Prop where
  table : s.table.Sound
  roster : ∀ m, s.machine = some m → m.roster.Valid
  awaits : s.table.Awaits s.owner todo

theorem StateMachine.valid_addFunc {m m' : StateMachine} {f : Func} (hm : m.roster.Valid)
    (h : m.addFunc f = .ok m') : m'.roster.Valid := by
  obtain ⟨roster, hadd, rfl⟩ := addFunc_eq_ok.mp h
  exact hm.add? hadd

namespace Site

theorem owner_eq_none {s : Site} : s.owner = none ↔ s.machine = none := Option.map_eq_none_iff

theorem owner_addType (s : Site) (d : TypeDef) : (s.addType d).owner = s.owner := by
  unfold owner addType
  cases s.machine <;> rfl

end Site

namespace Site.Sound

variable {s : Site} {p : Pending} {ps : List Pending}

/-- A declaration that leaves the symbol table alone. -/
theorem skip (h : s.Sound (p :: ps)) : s.Sound ps where
  table := h.table
  roster := h.roster
  awaits := h.awaits.next rfl (fun _ => rfl) (fun _ _ => rfl)

/-- A declaration that leaves the frames, and puts none of the others on record. -/
theorem kept {owner : Option String} {touched : TypeSymbol.Key → Prop} {u : SymbolTable}
    {machine : Option StateMachine} (h : s.Sound (p :: ps)) (hk : Kept owner touched s.table u)
    (hu : u.Sound) (hm : ∀ m, machine = some m → m.roster.Valid)
    (ho : machine.map StateMachine.ident = s.owner)
    (ht : ∀ type ∈ Pending.symbols ps, ¬touched type.key) : Sound { table := u, machine } ps where
  table := hu
  roster := hm
  awaits := by
    rw [show Site.owner { table := u, machine } = s.owner from ho]
    refine h.awaits.next (congrArg Frame.id hk.top) (fun name => ?_) fun type hmem => ?_
    · rw [hk.top]
    · exact hk.fieldTypes _ (ht type hmem)

/-- A declaration that binds one more symbol besides, of any kind but a type. -/
theorem bind {u : SymbolTable} {machine : Option StateMachine}
    (h : Sound { table := u, machine } ps) {symbol : Symbol} (hs : symbol.kind ≠ .type) :
    Sound { table := u.bind symbol, machine } ps where
  table := h.table.bind symbol
  roster := h.roster
  awaits := by
    refine ⟨h.awaits.settled, fun type hmem => ?_, h.awaits.unseen, h.awaits.distinct⟩
    rw [SymbolTable.find?_bind_type _ hs]
    exact h.awaits.bound type hmem

end Site.Sound

namespace Pending

variable {s : Site} {ps : List Pending}

theorem sound_compileFunc {p : Pending} (h : s.Sound (p :: ps)) (d : FuncDecl) :
    Harmless (d.compile s).1 ∧ (d.compile s).2.Sound ps := by
  refine ⟨d.harmless_compile h.table.keyed h.roster, ?_⟩
  obtain ⟨u, -, hk, hcases⟩ := FuncDecl.compile_cases s d
  have hu : u.Sound := h.table.kept hk (fun _ hf => hf.elim) (fun _ hf => hf.elim)
  obtain ⟨e, hc, -⟩ | ⟨f, -, ⟨hnone, -, hc⟩ | ⟨m, m', hm, ha, hc⟩⟩ := hcases <;> rw [hc]
  · exact h.kept hk hu h.roster rfl (fun _ _ hf => hf)
  · exact (h.kept hk hu h.roster rfl (fun _ _ hf => hf)).bind (by simp [Symbol.kind])
  · refine h.kept hk hu ?_ ?_ (fun _ _ hf => hf)
    · rintro _ ⟨⟩
      exact StateMachine.valid_addFunc (h.roster m hm) ha
    · rw [Site.owner, hm]
      exact congrArg some (StateMachine.ident_addFunc ha)

theorem sound_compileDeclared {d : TypeDecl} {type : TypeSymbol}
    (h : s.Sound (.type d (.declared type) :: ps)) :
    Harmless (TypeDecl.compileDeclared s type).1 ∧
      (TypeDecl.compileDeclared s type).2.Sound ps := by
  obtain ⟨hhome, hfind, hunseen, hother⟩ := h.awaits.head
  refine ⟨TypeDecl.harmless_compileDeclared hunseen, ?_⟩
  obtain ⟨u, hk, hcases⟩ := TypeDecl.compileDeclared_cases s type
  have hu : u.Sound := by
    refine h.table.kept hk ?_ ?_
    · rintro _ rfl -
      show s.table.top.find? type.ident .type ≠ none
      rw [hfind]
      simp
    · rintro _ rfl
      have hopened := h.table.opened
      rw [← hhome] at hopened
      exact Nat.lt_of_lt_of_le hopened (hk.toMarked.count_opened_le _)
  obtain ⟨e, hc, -⟩ | hc := hcases <;> rw [hc]
  · exact h.kept hk hu h.roster rfl hother
  · refine h.kept hk hu ?_ ?_ hother
    · intro m' hm'
      obtain ⟨m, hm, rfl⟩ := Option.map_eq_some_iff.mp hm'
      exact h.roster m hm
    · exact Site.owner_addType s (u.define type)

/-- A declaration that is not a machine ends its turn harmlessly and leaves a sound site. -/
theorem sound_compileMember {p : Pending} (h : s.Sound (p :: ps)) :
    Harmless (p.compileMember s).1 ∧ (p.compileMember s).2.Sound ps := by
  cases p with
  | func d =>
      obtain ⟨hr, hs⟩ := sound_compileFunc h d
      exact ⟨hr.map _, hs⟩
  | machine d => exact ⟨.error rfl, h.skip⟩
  | type d state =>
      have hsettled := h.awaits.settled _ List.mem_cons_self
      cases state with
      | pending => exact hsettled.elim
      | rejected e =>
          rw [show e = _ from hsettled]
          exact ⟨.error rfl, h.skip⟩
      | declared type =>
          obtain ⟨hr, hs⟩ := sound_compileDeclared h
          exact ⟨hr.map _, hs⟩

/-- A declaration that is not a machine stays in the frame and in the machine that it finds. -/
theorem outer_compileMember {owner : Option String} {home : FrameId} (p : Pending)
    (hp : p.SettledIn owner home) :
    (p.compileMember s).2.table.outer = s.table.outer ∧ (p.compileMember s).2.owner = s.owner := by
  cases p with
  | func d =>
      show (d.compile s).2.table.outer = _ ∧ (d.compile s).2.owner = _
      obtain ⟨u, -, hk, ⟨e, hc, -⟩ | ⟨f, -, ⟨hnone, -, hc⟩ | ⟨m, m', hm, ha, hc⟩⟩⟩ :=
        FuncDecl.compile_cases s d <;> rw [hc]
      · exact ⟨hk.outer, rfl⟩
      · exact ⟨hk.outer, rfl⟩
      · refine ⟨hk.outer, ?_⟩
        rw [Site.owner, Site.owner, hm]
        exact congrArg some (StateMachine.ident_addFunc ha)
  | machine d => exact ⟨rfl, rfl⟩
  | type d state =>
      cases state with
      | pending => exact hp.elim
      | rejected e => exact ⟨rfl, rfl⟩
      | declared type =>
          show (TypeDecl.compileDeclared s type).2.table.outer = _ ∧
            (TypeDecl.compileDeclared s type).2.owner = _
          obtain ⟨u, hk, ⟨e, hc, -⟩ | hc⟩ := TypeDecl.compileDeclared_cases s type <;> rw [hc]
          · exact ⟨hk.outer, rfl⟩
          · exact ⟨hk.outer, Site.owner_addType _ _⟩

end Pending

theorem harmless_claimOutputs (claimed files : NameSet) (location : Location) :
    Harmless (claimOutputs claimed files location) := by
  unfold claimOutputs
  split
  · exact .error rfl
  · exact .ok _

namespace MemberRun

variable {r : MemberRun}

theorem sound_step {p : Pending} {ps : List Pending} (h : r.stage.site.Sound (p :: ps)) :
    ∃ r', r.step p = (none, r') ∧ r'.stage = (r.attempt p).2 ∧ r'.stage.site.Sound ps ∧
      r'.stage.site.owner = r.stage.site.owner := by
  have hattempt : Harmless (r.attempt p).1 ∧ (r.attempt p).2.site.Sound ps ∧
      (r.attempt p).2.site.owner = r.stage.site.owner := by
    unfold attempt Stage.attempt
    split
    · rename_i hc
      exact ⟨.error (harmless_claimOutputs _ _ _ _ hc), h.skip, rfl⟩
    · obtain ⟨hharmless, hsound⟩ := Pending.sound_compileMember h
      exact ⟨hharmless, hsound,
        (Pending.outer_compileMember p (h.awaits.settled p List.mem_cons_self)).2⟩
  obtain ⟨hharmless, hsound, howner⟩ := hattempt
  unfold step
  cases ha : r.attempt p with
  | mk result stage =>
      rw [ha] at hharmless hsound howner
      cases result with
      | ok c => exact ⟨_, rfl, rfl, hsound, howner⟩
      | error e =>
          simp only [hharmless e rfl, Bool.false_eq_true, if_false]
          exact ⟨_, rfl, rfl, hsound, howner⟩

theorem sound_steps (ps : List Pending) (h : r.stage.site.Sound ps) :
    ∃ r', r.steps ps = (none, r') ∧ r'.stage.site.Sound [] := by
  induction ps generalizing r with
  | nil => exact ⟨r, rfl, h⟩
  | cons p ps ih =>
      obtain ⟨r', hstep, -, hr', -⟩ := sound_step h
      obtain ⟨r'', hsteps, hr''⟩ := ih hr'
      exact ⟨r'', by simp only [steps, hstep, hsteps], hr''⟩

end MemberRun

namespace MachineDecl

variable {t : SymbolTable}

theorem sound_start (h : t.Sound) (d : MachineDecl Decl) :
    (d.start (d.inner t).1).stage.site.Sound (d.inner t).2 where
  table := Decl.sound_predeclareAll _ (h.push _) _
  roster := by
    rintro _ ⟨⟩
    exact Roster.valid_empty
  awaits := Decl.awaits_predeclareAll _ (h.push _) _

/-- A machine compiles, whatever happens to its members, and leaves a sound table. -/
theorem compile_succeeds (h : t.Sound) (d : MachineDecl Decl) :
    ∃ c u, d.compile t = (.ok c, u) ∧ c.machine.ident = d.ident ∧ c.machine.roster.Valid ∧
      u.Sound ∧ Kept (some d.ident) (fun k => k.home = d.home t) t u := by
  obtain ⟨r, hr, hsound⟩ := MemberRun.sound_steps _ (sound_start h d)
  obtain ⟨-, -, m, hm, hident⟩ := members_run t d
  have hrun : d.run t = (none, r) := hr
  rw [hrun] at hm
  have hcompile : (d.compile t).1 = .ok ⟨m, r.errors⟩ := compile_eq_ok.mpr ⟨r, hrun, hm, rfl⟩
  have hk := kept_compile t d
  have hcount := count_opened_compile t d
  refine ⟨_, _, Prod.ext hcompile rfl, hident, hsound.roster m hm, h.kept hk ?_ ?_, hk⟩
  · -- The innermost frame was opened before the machine's.
    rintro k hk hhome
    have hopened := h.opened
    rw [← hhome, show k.home = d.home t from hk] at hopened
    exact absurd hopened (Nat.lt_irrefl _)
  · rintro k hk
    rw [show k.home = d.home t from hk]
    show t.opened.count (some d.ident) < (d.compile t).2.opened.count (some d.ident)
    omega

end MachineDecl

end Coherence
