import Coherence.Proofs.Rearrangement
/-!
# Types registered ahead of time

Two sites may differ in that further types are registered at one of them already, which the other one
gets later (`Site.Precedes`). A declaration that compiles without them compiles into the same with them,
and a machine's members, too (`Pending.compile_precedes`): what was found without them is not hidden,
and all that a declaration leaves behind is the same.
-/

namespace Coherence

open SymbolTable (Marked Untouched Within)

/-- Further types are registered at the second site. The field types on record, the marks of machines
and the machine are the same. -/
structure Site.Precedes (later : List TypeSymbol) (s v : Site) : Prop where
  table : s.table.Precedes later v.table
  found : s.table.foundFields = v.table.foundFields
  opened : ∀ name, s.table.opened.count (some name) = v.table.opened.count (some name)
  machine : s.machine = v.machine

theorem SymbolTable.Marked.foundFields {owner : Option String} {t u : SymbolTable}
    (h : Marked owner Untouched t u) : u.foundFields = t.foundFields := by
  funext τ
  unfold SymbolTable.foundFields
  rw [h.fieldTypes τ.key id]

/-! ### Functions and types -/

variable {later : List TypeSymbol} {s v s' : Site}

theorem TypeDecl.compileDeclared_precedes {type : TypeSymbol} {def' : TypeDef}
    (h : s.Precedes later v) (hc : compileDeclared s type = (.ok def', s')) :
    ∃ v', compileDeclared v type = (.ok def', v') ∧ s'.Precedes later v' := by
  have hresult := compileDeclared_below (fun name x hx => h.table.below name .type x hx)
    (congrFun h.found type) def' (congrArg Prod.fst hc)
  obtain ⟨u, hk, ⟨e, hs, -⟩ | hs⟩ := compileDeclared_cases s type
  · rw [hs] at hc
    cases hc
  obtain ⟨w, hk', ⟨e, hv, -⟩ | hv⟩ := compileDeclared_cases v type
  · rw [hv] at hresult
    cases hresult
  rw [hv] at hresult
  have hdefine : w.define type = def' := Except.ok.inj hresult
  rw [hs] at hc
  obtain ⟨hdef, rfl⟩ := Prod.mk.inj hc
  have hdefine' : u.define type = def' := Except.ok.inj hdef
  refine ⟨_, by rw [hv, hdefine], h.table.of_frames hk.frames hk'.frames, ?_, fun name => ?_, ?_⟩
  · funext τ
    show u.foundFields τ = w.foundFields τ
    by_cases hτ : τ.key = type.key
    · have hfields : u.foundFields type = w.foundFields type :=
        congrArg TypeDef.fieldTypes (hdefine'.trans hdefine.symm)
      unfold SymbolTable.foundFields at hfields ⊢
      rw [hτ]
      exact hfields
    · have hfound := congrFun h.found τ
      unfold SymbolTable.foundFields at hfound ⊢
      rw [hk.fieldTypes _ hτ, hk'.fieldTypes _ hτ]
      exact hfound
  · show u.opened.count (some name) = w.opened.count (some name)
    rw [hk.toMarked.count_opened (by simp), hk'.toMarked.count_opened (by simp)]
    exact h.opened name
  · show s.machine.map (fun m => m.addType (u.define type)) =
      v.machine.map fun m => m.addType def'
    rw [h.machine, hdefine']

namespace Pending

variable {p : Pending} {ps : List Pending} {c : Compiled}

/-- A declaration that is not a machine compiles into the same with further types. -/
theorem compileMember_precedes (hsettled : p.SettledIn s.owner s.table.top.id)
    (h : s.Precedes later v) (hc : p.compileMember s = (.ok c, s')) :
    ∃ v', p.compileMember v = (.ok c, v') ∧ s'.Precedes later v' := by
  cases p with
  | machine d => cases hc
  | func d =>
      have hs' : (d.compile s).2 = s' := congrArg Prod.snd hc
      obtain ⟨f, hf, rfl⟩ := map_eq_ok.mp (congrArg Prod.fst hc)
      obtain ⟨v', hv', htable, -, hmachine⟩ := FuncDecl.compile_precedes h.table
        (congrArg (Option.map StateMachine.core) h.machine) (Prod.ext hf hs')
      have hmarked := d.marked_compile s
      have hmarked' := d.marked_compile v
      rw [hs'] at hmarked
      rw [hv'] at hmarked'
      refine ⟨v', by simp only [compileMember, hv', Except.map], htable, ?_, fun name => ?_,
        hmachine h.machine⟩
      · rw [hmarked.foundFields, hmarked'.foundFields, h.found]
      · rw [hmarked.count_opened (by simp), hmarked'.count_opened (by simp), h.opened]
  | type d state =>
      cases state with
      | pending => exact hsettled.elim
      | rejected e => cases hc
      | declared type =>
          have hs' : (TypeDecl.compileDeclared s type).2 = s' := congrArg Prod.snd hc
          obtain ⟨def', hdef, rfl⟩ := map_eq_ok.mp (congrArg Prod.fst hc)
          obtain ⟨v', hv', hprecedes⟩ := TypeDecl.compileDeclared_precedes h (Prod.ext hdef hs')
          refine ⟨v', ?_, hprecedes⟩
          show ((TypeDecl.compileDeclared v type).1.map Compiled.type,
            (TypeDecl.compileDeclared v type).2) = _
          rw [hv']
          rfl

end Pending

/-! ### Members -/

namespace MemberRun

/-- More is in scope for the second run, which found the same so far. -/
structure Precedes (r u : MemberRun) : Prop where
  site : r.stage.site.Precedes [] u.stage.site
  claimed : r.stage.claimed = u.stage.claimed
  errors : r.errors = u.errors

variable {r u r' : MemberRun} {p : Pending} {ps : List Pending}

theorem Precedes.step (hr : r.Inv (p :: ps)) (h : r.Precedes u) (hstep : r.Clean p r') :
    ∃ u', u.Clean p u' ∧ r'.Precedes u' := by
  obtain ⟨c, site, hfree, hc, rfl⟩ := hstep
  have hsettled := hr.1.awaits.settled p List.mem_cons_self
  obtain ⟨site', hc', hsite⟩ := Pending.compileMember_precedes hsettled h.site hc
  have howner : r.stage.site.owner = u.stage.site.owner := by
    rw [Site.owner, Site.owner, h.site.machine]
  rw [howner, h.claimed] at hfree
  refine ⟨_, ⟨c, site', hfree, hc', rfl⟩, hsite, ?_, h.errors⟩
  show NameSet.addAll _ _ = NameSet.addAll _ _
  rw [howner, h.claimed]

theorem Precedes.runs (hr : r.Inv ps) (h : r.Precedes u) (hruns : Runs Clean r ps r') :
    ∃ u', Runs Clean u ps u' ∧ r'.Precedes u' := by
  induction hruns generalizing u with
  | nil => exact ⟨u, .nil, h⟩
  | cons hstep _ ih =>
      obtain ⟨u₁, hstep₁, h₁⟩ := h.step hr hstep
      obtain ⟨u₂, hruns₂, h₂⟩ := ih (hstep.inv hr).1 h₁
      exact ⟨u₂, .cons hstep₁ hruns₂, h₂⟩

end MemberRun

/-! ### Machines -/

namespace MachineDecl

variable {t u : SymbolTable} {d : MachineDecl Decl}

/-- The members of a machine start with the types of the machine, whatever else is in scope. -/
theorem start_precedes (hbelow : t.Below u) (hfound : t.foundFields = u.foundFields)
    (hopened : ∀ name, t.opened.count (some name) = u.opened.count (some name))
    (hrejected : ∀ p ∈ (d.inner t).2, ¬p.Rejected) :
    (d.inner t).2 = (d.inner u).2 ∧
      (d.start (d.inner t).1).Precedes (d.start (d.inner u).1) := by
  have hwithin : (t.push d.ident).Within (u.push d.ident) := .push hbelow _
  have hid : (u.push d.ident).top.id = (t.push d.ident).top.id := by
    show FrameId.mk (some d.ident) _ = FrameId.mk (some d.ident) _
    rw [hopened]
  have hnew := Decl.new_of_predeclareAll _ hrejected
  have hnew' := Decl.new_congr hwithin.top hnew
  rw [← hid] at hnew'
  obtain ⟨-, -, hmarks, hfields⟩ := Decl.predeclareAll_frame (some d.ident) (t.push d.ident) d.members
  obtain ⟨-, -, hmarks', hfields'⟩ := Decl.predeclareAll_frame (some d.ident) (u.push d.ident) d.members
  have hinner := Decl.predeclareAll_of_new _ hnew
  have hinner' := Decl.predeclareAll_of_new _ hnew'
  rw [hid] at hinner'
  have hsite : Site.Precedes [] (d.start (d.inner t).1).stage.site
      (d.start (d.inner u).1).stage.site := by
    refine ⟨?_, ?_, fun name => ?_, rfl⟩
    · show SymbolTable.Precedes [] (d.inner t).1 (d.inner u).1
      unfold inner
      rw [hinner, hinner']
      exact .of_within (hwithin.bindTypes _)
    · funext τ
      have hτ := congrFun hfound τ
      show (d.inner t).1.foundFields τ = (d.inner u).1.foundFields τ
      unfold SymbolTable.foundFields at hτ ⊢
      unfold inner
      rw [hfields, hfields']
      exact hτ
    · show (d.inner t).1.opened.count (some name) = (d.inner u).1.opened.count (some name)
      unfold inner
      rw [hmarks, hmarks']
      show (_ :: t.opened).count (some name) = (_ :: u.opened).count (some name)
      rw [List.count_cons, List.count_cons, hopened]
  refine ⟨?_, hsite, rfl, rfl⟩
  unfold inner
  rw [hinner, hinner']

/-- A machine whose members all compile compiles into the same where more is in scope. -/
theorem compile_precedes (ht : t.Sound) (hbelow : t.Below u) (hfound : t.foundFields = u.foundFields)
    (hopened : ∀ name, t.opened.count (some name) = u.opened.count (some name))
    {c : CompiledMachine} (hc : (d.compile t).1 = .ok c) (herrors : c.errors = []) :
    (d.compile u).1 = .ok c ∧ (d.compile t).2.foundFields = (d.compile u).2.foundFields := by
  have hruns := clean_run ht hc herrors
  obtain ⟨r, hr, hm, hfailures⟩ := compile_eq_ok.mp hc
  rw [hr] at hruns
  obtain ⟨hpending, hstart⟩ := start_precedes hbelow hfound hopened fun p hp => by
    obtain ⟨_, _, c', site, -, hsite, -⟩ := hruns.forall_mem p hp
    exact not_rejected hsite
  obtain ⟨r', hruns', hfinal⟩ := hstart.runs ⟨sound_start ht d, rfl⟩ hruns
  rw [hpending] at hruns'
  have hr' : d.run u = (none, r') := MemberRun.steps_of_runs hruns'
  refine ⟨compile_eq_ok.mpr ⟨r', hr', ?_, ?_⟩, ?_⟩
  · rw [← hfinal.site.machine]
    exact hm
  · rw [← hfinal.errors]
    exact hfailures
  · funext τ
    rw [table_compile, table_compile, TypeDecl.foundFields_close, TypeDecl.foundFields_close, hr, hr']
    exact congrFun hfinal.site.found τ

end MachineDecl

theorem Pending.compile_precedes {p : Pending} {ps : List Pending} {c : Compiled}
    (hs : s.Sound (p :: ps)) (hm : s.machine = none) (h : s.Precedes later v)
    (hc : p.compile s = (.ok c, s')) (hflawless : c.Flawless) :
    ∃ v', p.compile v = (.ok c, v') ∧ s'.Precedes later v' := by
  by_cases hp : ∀ d, p ≠ .machine d
  · rw [compile_eq_compileMember hp] at hc ⊢
    exact compileMember_precedes (hs.awaits.settled p List.mem_cons_self) h hc
  · obtain ⟨d, rfl⟩ : ∃ d, p = .machine d := by simpa using hp
    have hm' : v.machine = none := h.machine.symm.trans hm
    rw [compile_machine hm] at hc
    rw [compile_machine hm']
    have hs' : { s with table := (d.compile s.table).2 } = s' := congrArg Prod.snd hc
    obtain ⟨m, hmachine, rfl⟩ := map_eq_ok.mp (congrArg Prod.fst hc)
    obtain ⟨hmachine', hfound⟩ :=
      MachineDecl.compile_precedes hs.table h.table.below h.found h.opened hmachine hflawless
    have hk := d.kept_compile s.table
    have hk' := d.kept_compile v.table
    refine ⟨_, by rw [hmachine']; rfl, ?_⟩
    rw [← hs']
    refine ⟨h.table.of_frames hk.frames hk'.frames, hfound, fun name => ?_, h.machine⟩
    show (d.compile s.table).2.opened.count (some name) = (d.compile v.table).2.opened.count (some name)
    by_cases hname : some d.ident = some name
    · rw [← hname, d.count_opened_compile, d.count_opened_compile, h.opened]
    · rw [hk.toMarked.count_opened hname, hk'.toMarked.count_opened hname, h.opened]

end Coherence
