import Coherence.Proofs.Foresight
import Coherence.Proofs.OrderIndependence
import Coherence.Proofs.Turns
/-!
# Lists compiled one after another

A list of declarations that compiles without errors may be cut in two, if its first part compiles
without errors alone: compiled one after the other the two parts give the same output, registry, symbols
and units (`Session.compile_append`).

While the first part is compiled alone the types of the second part are not registered yet; while the
second part is compiled alone the units of the first part are not claimed any more. Neither makes a
difference to what compiles (`DeclRun.Precedes.step`).
-/

namespace Coherence

/-! ### Runs -/

theorem Runs.append {σ α : Type} {step : σ → α → σ → Prop} {s s' : σ} {l l' : List α}
    (h : Runs step s (l ++ l') s') : ∃ u, Runs step s l u ∧ Runs step u l' s' := by
  induction l generalizing s with
  | nil => exact ⟨s, .nil, h⟩
  | cons a l ih =>
      cases h with
      | cons hstep hrest =>
          obtain ⟨u, hu, hrest⟩ := ih hrest
          exact ⟨u, .cons hstep hu, hrest⟩

namespace DeclRun

variable {later : List TypeSymbol} {r u r' u' : DeclRun} {p : Pending} {ps qs : List Pending}
  {c : Compiled} {site : Site}

/-- The second run has found the same so far, with further types registered, and no more units claimed. -/
structure Precedes (later : List TypeSymbol) (r u : DeclRun) : Prop where
  site : r.stage.site.Precedes later u.stage.site
  claimed : ∀ n ∈ u.stage.claimed.names, n ∈ r.stage.claimed.names
  registry : r.machines = u.machines

theorem machines_add (h : r.machines = u.machines) {d : Decl} (hr : r.add d c = .ok r')
    (hu : u.add d c = .ok u') : r'.machines = u'.machines := by
  cases c with
  | func f =>
      cases hr
      cases hu
      exact h
  | type τ =>
      cases hr
      cases hu
      exact h
  | machine m =>
      unfold add at hr hu
      rw [← h] at hu
      dsimp only at hr hu
      split at hr
      · rename_i machines hregister
        rw [hregister] at hu
        cases hr
        cases hu
        rfl
      · rename_i e hregister
        rw [hregister] at hu
        rw [machines_record hr, machines_record hu]

theorem Takes.add (ht : r.Takes p c site) (hr : r.Sound (p :: ps)) (hstep : r.step p = .ok r') :
    { r with stage := (r.attempt p).2 }.add p.decl c = .ok r' := by
  unfold DeclRun.step at hstep
  rw [ht.attempt hr] at hstep ⊢
  dsimp only at hstep
  split at hstep
  · cases hstep
  · exact hstep

/-- Runs of which one precedes the other do the same next. -/
theorem Precedes.step (hr : r.Sound (p :: ps)) (hu : u.Sound (p :: qs)) (h : r.Precedes later u)
    (hstep : r.Clean p r') :
    ∃ u' o, u.Clean p u' ∧ r'.Precedes later u' ∧ r'.output = r.output.append o ∧
      u'.output = u.output.append o := by
  obtain ⟨hstep, c, site, ht⟩ := hstep
  obtain ⟨site', hc', hsite⟩ :=
    Pending.compile_precedes hr.site hr.top h.site ht.compile ht.flawless
  have ht' : u.Takes p c site' := by
    refine ⟨fun d hd => ?_, fun n hn hmem => ht.free n hn (h.claimed n hmem), hc', ht.flawless⟩
    rw [← h.registry]
    exact ht.unique d hd
  obtain ⟨r₁, hstep₁, -, hleft, hadds⟩ := ht.step hr
  rw [hstep] at hstep₁
  cases hstep₁
  obtain ⟨u', hstep', -, hright, hadds'⟩ := ht'.step hu
  refine ⟨u', _, ⟨hstep', c, site', ht'⟩, ⟨?_, fun n hn => ?_, ?_⟩, hadds.output, hadds'.output⟩
  · rw [hleft, hright]
    exact hsite
  · rw [hadds.claimed]
    exact ((hadds'.claimed n).mp hn).imp_right (h.claimed n)
  · refine machines_add ?_ (ht.add hr hstep) (ht'.add hu hstep')
    exact h.registry

theorem sound_of_runs (hr : r.Sound (ps ++ qs)) (h : Runs Clean r ps r') : r'.Sound qs := by
  induction h with
  | nil => exact hr
  | cons hstep _ ih => exact ih (hstep.sound hr)

/-- What the one run does with declarations the other one does, and adds the same to the output. -/
theorem Precedes.runs (hr : r.Sound ps) (hu : u.Sound (ps ++ qs)) (h : r.Precedes later u)
    (hruns : Runs Clean r ps r') :
    ∃ u' o, Runs Clean u ps u' ∧ r'.Precedes later u' ∧ r'.output = r.output.append o ∧
      u'.output = u.output.append o := by
  induction hruns generalizing u with
  | nil => exact ⟨u, {}, .nil, h, (Output.append_empty _).symm, (Output.append_empty _).symm⟩
  | cons hstep _ ih =>
      obtain ⟨u₁, o₁, hstep₁, h₁, hout₁, hout₁'⟩ := h.step hr hu hstep
      obtain ⟨u₂, o₂, hruns₂, h₂, hout₂, hout₂'⟩ := ih (hstep.sound hr) (hstep₁.sound hu) h₁
      refine ⟨u₂, o₁.append o₂, .cons hstep₁ hruns₂, h₂, ?_, ?_⟩
      · rw [hout₂, hout₁, Output.append_assoc]
      · rw [hout₂', hout₁', Output.append_assoc]

theorem runs_unique (h : Runs Clean r ps r') (h' : Runs Clean r ps u') : r' = u' := by
  have hsteps := steps_of_runs h
  rw [steps_of_runs h'] at hsteps
  exact (Except.ok.inj hsteps).symm

end DeclRun

/-! ### Symbol tables at top level -/

namespace SymbolTable

variable {t u : SymbolTable} {types more : List TypeSymbol}

theorem bindTypes_append (t : SymbolTable) (types more : List TypeSymbol) :
    t.bindTypes (types ++ more) = (t.bindTypes types).bindTypes more := List.foldl_append

theorem New.after (h : t.New (types ++ more)) : (t.bindTypes types).New more := by
  induction types generalizing t with
  | nil => exact h
  | cons type types ih => exact ih h.tail

theorem outer_bindTypes (t : SymbolTable) (types : List TypeSymbol) :
    (t.bindTypes types).outer = t.outer := by
  induction types generalizing t with
  | nil => rfl
  | cons type types ih => exact ih (t.bind (.type type))

theorem lookup_of_outer (h : t.outer = []) (name : String) (kind : SymbolKind) :
    t.lookup name kind = t.top.find? name kind := by
  rw [lookup_eq_or, h, List.findSome?_nil, Option.or_none]

/-- Of the outermost frame alone what it binds is all that is seen. -/
theorem alike_of_outer (ht : t.outer = []) (hu : u.outer = []) (h : t.top.find? = u.top.find?) :
    Alike t u := by
  refine ⟨h, ?_⟩
  funext name kind
  rw [lookup_of_outer ht, lookup_of_outer hu, h]

theorem below_bindTypes (houter : t.outer = []) (h : t.New types) : t.Below (t.bindTypes types) := by
  induction types generalizing t with
  | nil => exact fun _ _ _ hs => hs
  | cons type types ih =>
      intro name kind s hs
      refine ih (t := t.bind _) houter h.tail name kind s ?_
      rw [lookup_bind, if_neg]
      · exact hs
      · intro heq
        have hfree := h.free type List.mem_cons_self
        obtain ⟨rfl, rfl⟩ := Prod.mk.inj heq
        rw [lookup_of_outer houter] at hs
        rw [show t.top.find? type.ident .type = some s from hs] at hfree
        cases hfree

end SymbolTable

/-! ### Sessions -/

theorem Pending.id_compile {s : Site} {p : Pending} {ps : List Pending} (hs : s.Sound (p :: ps))
    (hm : s.machine = none) : (p.compile s).2.table.top.id = s.table.top.id := by
  cases p with
  | func d =>
      show (d.compile s).2.table.top.id = _
      obtain ⟨u, hk, hu | ⟨f, -, hu⟩⟩ := d.table_compile s <;> rw [hu]
      · exact congrArg Frame.id hk.top
      · show u.top.id = _
        rw [hk.top]
  | machine d =>
      rw [compile_machine hm]
      exact congrArg Frame.id (d.kept_compile s.table).top
  | type d state =>
      cases state with
      | pending => exact (hs.awaits.settled _ List.mem_cons_self).elim
      | rejected e => rfl
      | declared type => exact congrArg Frame.id (TypeDecl.kept_compileDeclared s type).top

namespace Output

theorem perm_units_append (o o' : Output) : (o.units ++ o'.units).Perm (o.append o').units := by
  have hsort : ∀ o : Output, o.units.Perm (o.unitsIn none) := fun o => Emit.perm_sortByName _
  have happend := perm_unitsIn_append none o o'
  exact ((hsort o).append (hsort o')).trans (happend.symm.trans (hsort _).symm)

theorem hasErrors_append {o o' : Output} (h : (o.append o').hasErrors = false) :
    o'.hasErrors = false := by
  unfold hasErrors append at h
  rw [List.any_append, Bool.or_eq_false_iff] at h
  exact h.2

end Output

namespace Session

variable {s s₁ s₂ : Session} {ds ds' : List Decl} {out outAll : Output}

theorem id_of_runs (hs : s.Sound) {r : DeclRun} (h : Runs DeclRun.Clean
    (s.begin (Decl.predeclareAll s.table none ds).1) (Decl.predeclareAll s.table none ds).2 r) :
    r.stage.site.table.top.id = s.table.top.id := by
  obtain ⟨-, hid, -⟩ := Decl.predeclareAll_frame none s.table ds
  exact (DeclRun.forall_turns (P := fun v => v.table.top.id = s.table.top.id) (Q := fun _ => True)
    (fun v p ps hv hm hP => ⟨(Pending.id_compile hv hm).trans hP, trivial⟩) (fun _ _ _ _ => trivial)
    (sound_begin hs ds) hid).2 r (DeclRun.steps_of_runs h)

/-- A list starts without the types of what is to follow. -/
theorem precedes_begin (hs : s.Sound)
    (hnew : s.table.New (ds.filterMap (Decl.symbol? none s.table.top.id)))
    (hall : s.table.New ((ds ++ ds').filterMap (Decl.symbol? none s.table.top.id))) :
    DeclRun.Precedes (ds'.filterMap (Decl.symbol? none s.table.top.id))
      (s.begin (Decl.predeclareAll s.table none ds).1)
      (s.begin (Decl.predeclareAll s.table none (ds ++ ds')).1) := by
  obtain ⟨-, -, hopened, hfields⟩ := Decl.predeclareAll_frame none s.table ds
  obtain ⟨-, -, hopened', hfields'⟩ := Decl.predeclareAll_frame none s.table (ds ++ ds')
  refine ⟨⟨?_, ?_, fun name => ?_, rfl⟩, fun _ hn => hn, rfl⟩
  · show SymbolTable.Precedes _ (Decl.predeclareAll s.table none ds).1
      (Decl.predeclareAll s.table none (ds ++ ds')).1
    rw [Decl.predeclareAll_of_new none hnew, Decl.predeclareAll_of_new none hall]
    rw [List.filterMap_append] at hall ⊢
    rw [SymbolTable.bindTypes_append]
    refine ⟨.of_alike .refl, hall.after, SymbolTable.below_bindTypes ?_ hall.after⟩
    rw [SymbolTable.outer_bindTypes, hs.outer]
  · show (Decl.predeclareAll s.table none ds).1.foundFields =
      (Decl.predeclareAll s.table none (ds ++ ds')).1.foundFields
    unfold SymbolTable.foundFields
    rw [hfields, hfields']
  · show (Decl.predeclareAll s.table none ds).1.opened.count (some name) =
      (Decl.predeclareAll s.table none (ds ++ ds')).1.opened.count (some name)
    rw [hopened, hopened']

/-- The run over all does with the first part what the run over it alone does, and then goes on. -/
theorem first_part (hs : s.Sound) {r rAll : DeclRun} (hruns : Runs DeclRun.Clean
      (s.begin (Decl.predeclareAll s.table none ds).1) (Decl.predeclareAll s.table none ds).2 r)
    (hall : Runs DeclRun.Clean (s.begin (Decl.predeclareAll s.table none (ds ++ ds')).1)
      (Decl.predeclareAll s.table none (ds ++ ds')).2 rAll) :
    ∃ u, u.Sound (ds'.map (Decl.settle none s.table.top.id)) ∧
      DeclRun.Precedes (ds'.filterMap (Decl.symbol? none s.table.top.id)) r u ∧
      u.output = r.output ∧ Runs DeclRun.Clean u (ds'.map (Decl.settle none s.table.top.id)) rAll := by
  have hnew := new_of_runs hruns
  have hnewAll := new_of_runs hall
  have hpending : (Decl.predeclareAll s.table none (ds ++ ds')).2 =
      (Decl.predeclareAll s.table none ds).2 ++ ds'.map (Decl.settle none s.table.top.id) := by
    rw [Decl.predeclareAll_of_new none hnew, Decl.predeclareAll_of_new none hnewAll, List.map_append]
  have hbegin := sound_begin hs (ds ++ ds')
  rw [hpending] at hbegin hall
  obtain ⟨u, o, hu, hprecedes, hout, hout'⟩ :=
    (precedes_begin hs hnew hnewAll).runs (sound_begin hs ds) hbegin hruns
  obtain ⟨u', hu', hrest⟩ := hall.append
  cases DeclRun.runs_unique hu hu'
  exact ⟨u, DeclRun.sound_of_runs hbegin hu, hprecedes, hout'.trans hout.symm, hrest⟩

/-- After a first part the run over all goes on as a run over the rest alone starts, but for the units
that are claimed. -/
theorem precedes_resume {r u : DeclRun} {ps : List Pending} (hr : r.Sound []) (hu : u.Sound ps)
    (h : DeclRun.Precedes (ds'.filterMap (Decl.symbol? none r.session.table.top.id)) r u) :
    DeclRun.Precedes [] u (r.session.begin (Decl.predeclareAll r.session.table none ds').1) := by
  have hnew : r.session.table.New _ := h.site.table.new
  obtain ⟨houter, -, hopened, hfields⟩ := Decl.predeclareAll_frame none r.session.table ds'
  have htables := h.site.table.within.top
  refine ⟨⟨?_, ?_, fun name => ?_, hu.top⟩, ?_, h.registry.symm⟩
  · show SymbolTable.Precedes [] u.stage.site.table (Decl.predeclareAll r.session.table none ds').1
    refine .of_within (.of_alike (SymbolTable.alike_of_outer hu.outer (houter.trans hr.outer) ?_))
    rw [Decl.predeclareAll_of_new none hnew]
    exact htables.symm
  · show u.stage.site.table.foundFields = (Decl.predeclareAll r.session.table none ds').1.foundFields
    rw [← h.site.found]
    unfold SymbolTable.foundFields
    rw [hfields]
    rfl
  · show u.stage.site.table.opened.count (some name) =
      (Decl.predeclareAll r.session.table none ds').1.opened.count (some name)
    rw [← h.site.opened, hopened]
    rfl
  · rintro n hn
    cases hn

/-- A list of declarations that compiles without errors may be cut after a part that compiles without
errors alone. -/
theorem compile_append {config : Config} (hs : Reached config s)
    (hc : s.compile ds = .ok (s₁, out)) (herrors : out.hasErrors = false)
    (hall : s.compile (ds ++ ds') = .ok (s₂, outAll)) (herrors' : outAll.hasErrors = false) :
    ∃ s₃ out', s₁.compile ds' = .ok (s₃, out') ∧ out'.hasErrors = false ∧ outAll = out.append out' ∧
      (∀ name kind, s₃.table.lookup name kind = s₂.table.lookup name kind) ∧
      (∀ type, s₃.table.define type = s₂.table.define type) ∧ s₃.machines = s₂.machines ∧
      (out.units ++ out'.units).Perm outAll.units := by
  have hs₁ : s₁.Sound := (Reached.compile hs hc).sound
  have hs₂ : s₂.Sound := (Reached.compile hs hall).sound
  obtain ⟨r, hruns, -⟩ := runs_of_compile hs.sound hc herrors
  obtain ⟨rAll, hrunsAll, -⟩ := runs_of_compile hs.sound hall herrors'
  cases (compile_of_runs hruns).symm.trans hc
  cases (compile_of_runs hrunsAll).symm.trans hall
  have hr : r.Sound [] :=
    DeclRun.sound_of_runs (by rw [List.append_nil]; exact sound_begin hs.sound ds) hruns
  obtain ⟨u, husound, hfirst, hout, hrest⟩ := first_part hs.sound hruns hrunsAll
  -- The frame that all is declared in is still the same one.
  have hid : r.session.table.top.id = s.table.top.id := id_of_runs hs.sound hruns
  rw [← hid] at husound hfirst hrest
  have hpending : (Decl.predeclareAll r.session.table none ds').2 =
      ds'.map (Decl.settle none r.session.table.top.id) := by
    have hnew : r.session.table.New _ := hfirst.site.table.new
    rw [Decl.predeclareAll_of_new none hnew]
  have hbegin := sound_begin hs₁ ds'
  rw [hpending] at hbegin
  -- The run over the rest alone does what the run over all does from there on.
  obtain ⟨w, o, hw, hlast, houtAll, hout'⟩ :=
    (precedes_resume hr husound hfirst).runs husound (by rwa [List.append_nil]) hrest
  rw [← hpending] at hw
  have houtputs : rAll.output = r.output.append w.output := by
    rw [houtAll, hout, hout']
    rfl
  rw [houtputs] at herrors' ⊢
  refine ⟨w.session, w.output, compile_of_runs hw, Output.hasErrors_append herrors', rfl, ?_, ?_, ?_,
    Output.perm_units_append _ _⟩
  · intro name kind
    have houter : w.session.table.outer = [] :=
      (Reached.compile (.compile hs hc) (compile_of_runs hw)).sound.outer
    have htop : rAll.session.table.top.find? = w.session.table.top.find? := hlast.site.table.within.top
    rw [SymbolTable.lookup_of_outer houter, SymbolTable.lookup_of_outer hs₂.outer, htop]
  · intro type
    exact congrArg (TypeDef.mk type) (congrFun hlast.site.found type).symm
  · exact hlast.registry.symm

/-- A machine with a type `Line` of its own. -/
def ownLine : List Decl := [
  .type { ident := "State", body := .enumeration ["I", "M"] },
  .machine { ident := "L1", members := [
    .func { returnType := { ident := "Line" }, ident := "head" },
    .type { ident := "Line", body := .record [{ type := { ident := "State" }, ident := "state" }] }] }]

/-- A type `Line` at top level, and a machine that uses it. -/
def sharedLine : List Decl := [
  .machine { ident := "L2", members := [
    .func { returnType := { ident := "Line" }, ident := "head"
            formals := [{ type := { ident := "State" }, ident := "state" }] }] },
  .type { ident := "Line", body := .record [{ type := { ident := "int" }, ident := "tag" }] }]

/-- Two machines, of which the second one uses a type that the first one has a type of its own for. -/
theorem compile_append_lines : ∃ s₀ s₁ s₂ out outAll, Session.start .prelude = .ok s₀ ∧
    s₀.compile ownLine = .ok (s₁, out) ∧ out.hasErrors = false ∧
    s₀.compile (ownLine ++ sharedLine) = .ok (s₂, outAll) ∧ outAll.hasErrors = false ∧
    ∃ s₃ out', s₁.compile sharedLine = .ok (s₃, out') ∧ out'.hasErrors = false ∧
      outAll = out.append out' ∧
      (∀ name kind, s₃.table.lookup name kind = s₂.table.lookup name kind) ∧
      (∀ type, s₃.table.define type = s₂.table.define type) ∧ s₃.machines = s₂.machines ∧
      (out.units ++ out'.units).Perm outAll.units := by
  have hrun : ((Session.start .prelude).toOption.bind fun s =>
      (s.compile ownLine).toOption.bind fun r =>
      (s.compile (ownLine ++ sharedLine)).toOption.map fun r' =>
        decide (r.2.hasErrors = false ∧ r'.2.hasErrors = false)) = some true := by decide +kernel
  obtain ⟨s₀, hs₀, hrun⟩ := Option.bind_eq_some_iff.mp hrun
  obtain ⟨⟨s₁, out⟩, hc, hrun⟩ := Option.bind_eq_some_iff.mp hrun
  obtain ⟨⟨s₂, outAll⟩, hall, hrun⟩ := Option.map_eq_some_iff.mp hrun
  obtain ⟨herrors, herrors'⟩ := of_decide_eq_true hrun
  rw [toOption_eq_some] at hs₀ hc hall
  exact ⟨s₀, s₁, s₂, out, outAll, hs₀, hc, herrors, hall, herrors',
    compile_append (.start hs₀) hc herrors hall herrors'⟩

end Session

end Coherence
