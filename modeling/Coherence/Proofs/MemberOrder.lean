import Coherence.Proofs.Registration
import Coherence.Proofs.Views
/-!
# The order of a machine's types

Inside a machine a type may stand anywhere among the members: if all members compile, they compile into
the same in any such order, and so does the machine, but for the order of its types
(`MachineDecl.compile_shuffled`).
-/

namespace Coherence

/-- The same machine with its types in another order. -/
structure StateMachine.Reorders (m m' : StateMachine) : Prop where
  core : m.core = m'.core
  types : m.types.Perm m'.types

def Decl.IsType (d : Decl) : Prop := ∃ d', d = .type d'

instance : DecidablePred Decl.IsType
  | .type d => .isTrue ⟨d, rfl⟩
  | .func _ => .isFalse (by rintro ⟨_, ⟨⟩⟩)
  | .machine _ => .isFalse (by rintro ⟨_, ⟨⟩⟩)

/-- The same machine with its types moved among the members. -/
def MachineDecl.Shuffles (d d' : MachineDecl Decl) : Prop :=
  ∃ members, Shuffled (· = ·) (fun a b : Decl => a.IsType ∨ b.IsType) d.members members ∧
    d' = { d with members }

theorem MachineDecl.Shuffles.refl (d : MachineDecl Decl) : d.Shuffles d :=
  ⟨d.members, .refl (fun _ => rfl) _, rfl⟩

theorem MachineDecl.Shuffles.symm {d d' : MachineDecl Decl} (h : d.Shuffles d') : d'.Shuffles d := by
  obtain ⟨members, hl, rfl⟩ := h
  exact ⟨d.members, hl.symm Eq.symm Or.symm, rfl⟩

/-- Types may go to any place in any order, if the other members stay in theirs. -/
theorem MachineDecl.Shuffles.of_types {d : MachineDecl Decl} {members : List Decl}
    (htypes : (d.members.filter (Decl.IsType ·)).Perm (members.filter (Decl.IsType ·)))
    (hrest : d.members.filter (¬Decl.IsType ·) = members.filter (¬Decl.IsType ·)) :
    d.Shuffles { d with members } := by
  refine ⟨members, ?_, rfl⟩
  refine .of_filter Decl.IsType Eq.symm (fun _ => rfl) Or.symm (fun _ _ h => .inr h) htypes ?_
  rw [hrest]
  exact .refl (fun _ => rfl) _

namespace Pending

variable {s s₁ s₂ : Site} {a b : Pending} {l : List Pending} {ca cb : Compiled}

theorem blind_of_alike {v : Site} (ha : ∀ d, a ≠ .machine d) (h : s.Alike v) : a.Blind s v := by
  cases a with
  | func d => exact h
  | type d state => exact fun name => by rw [h.table.lookup]
  | machine d => exact absurd rfl (ha d)

theorem not_machine_of_compileMember {c : Compiled} (h : a.compileMember s = (.ok c, s₁)) :
    ∀ d, a ≠ .machine d := by
  rintro d rfl
  cases h

/-- Of two declarations of which one is a type the second cannot tell if the first was there. -/
theorem blind_of_isType (ha : a.SettledIn s.owner s.table.top.id) (hb : ∀ d, b ≠ .machine d)
    (hp : a.IsType ∨ b.IsType) : b.Blind (a.compileMember s).2 s := by
  rcases hp with hp | ⟨d, state, rfl⟩
  · exact blind_of_alike hb (alike_compileMember hp ha).symm
  · exact lookup_compileMember ha

/-- Two declarations of which one is a type can change places. -/
theorem compileMember_swap (hs : s.Sound (a :: b :: l)) (hs' : s.Sound (b :: a :: l))
    (hp : a.IsType ∨ b.IsType) (ha : a.compileMember s = (.ok ca, s₁))
    (hb : b.compileMember s₁ = (.ok cb, s₂)) :
    ∃ v₁ v₂, b.compileMember s = (.ok cb, v₁) ∧ a.compileMember v₁ = (.ok ca, v₂) ∧
      s₂.Alike v₂ := by
  have hsettled : a.SettledIn s.owner s.table.top.id := hs.awaits.settled a List.mem_cons_self
  have hsettled' : b.SettledIn s.owner s.table.top.id := hs'.awaits.settled b List.mem_cons_self
  have hs₁ := (sound_compileMember hs).2
  have hblind := blind_of_isType hsettled (not_machine_of_compileMember hb) hp
  rw [ha] at hs₁ hblind
  obtain ⟨v₁, hv₁, halike₁⟩ := compileMember_blind hblind hs₁ hs' hb
  have hsv₁ := (sound_compileMember hs').2
  have hblind' := blind_of_isType hsettled' (not_machine_of_compileMember ha) hp.symm
  rw [hv₁] at hsv₁ hblind'
  obtain ⟨v₂, hv₂, halike₂⟩ := compileMember_blind hblind'.symm hs hsv₁ ha
  refine ⟨v₁, v₂, hv₁, hv₂, ?_⟩
  -- The type leaves its site as it was, so both orders end where the other declaration ends.
  rcases hp with hp | hp
  · have hleft := alike_compileMember hp hsettled
    have hright := alike_compileMember hp (hsv₁.awaits.settled a List.mem_cons_self)
    rw [ha] at hleft
    rw [hv₂] at hright
    exact (halike₁ hleft.symm).trans hright
  · have hleft := alike_compileMember hp (hs₁.awaits.settled b List.mem_cons_self)
    have hright := alike_compileMember hp hsettled'
    rw [hb] at hleft
    rw [hv₁] at hright
    exact hleft.symm.trans (halike₂ hright)

end Pending

/-! ### Steps without failures -/

namespace MemberRun

def types (r : MemberRun) : List TypeDef := (r.stage.site.machine.map StateMachine.types).getD []

/-- The next member compiles. -/
def Clean (r : MemberRun) (p : Pending) (r' : MemberRun) : Prop :=
  ∃ c site, (∀ n ∈ (p.decl.outputFiles r.stage.site.owner).names, n ∉ r.stage.claimed.names) ∧
    p.compileMember r.stage.site = (.ok c, site) ∧
    r' = { r with stage :=
      { site, claimed := r.stage.claimed.addAll (p.decl.outputFiles r.stage.site.owner).names } }

theorem Clean.step {r r' : MemberRun} {p : Pending} (h : r.Clean p r') : r.step p = (none, r') := by
  obtain ⟨c, site, hfree, hc, rfl⟩ := h
  have hattempt : r.attempt p = (.ok c, _) := Stage.attempt_eq_ok.mpr ⟨site, hfree, hc, rfl⟩
  simp only [MemberRun.step, hattempt]

theorem clean_of_attempt {r : MemberRun} {p : Pending} {c : Compiled}
    (h : (r.attempt p).1 = .ok c) : r.Clean p (r.step p).2 := by
  have hattempt : r.attempt p = (.ok c, (r.attempt p).2) := Prod.ext h rfl
  obtain ⟨site, hfree, hc, hstage⟩ := Stage.attempt_eq_ok.mp hattempt
  refine ⟨c, site, hfree, hc, ?_⟩
  unfold MemberRun.step
  rw [hattempt, hstage]

theorem runs_of_steps {r : MemberRun} {ps : List Pending} (h : r.stage.site.Sound ps)
    (hclean : (r.turns ps).filterMap Turn.failure? = []) : Runs Clean r ps (r.steps ps).2 := by
  induction ps generalizing r with
  | nil => exact .nil
  | cons p ps ih =>
      obtain ⟨r', hstep, -, hr', -⟩ := sound_step h
      obtain ⟨c, hc⟩ := Turn.compiles_of_failures hclean _ List.mem_cons_self
      have hstepClean := clean_of_attempt hc
      have htail := (List.forall_mem_cons.mp (List.filterMap_eq_nil_iff.mp hclean)).2
      rw [hstep] at hstepClean htail
      simp only [steps, hstep]
      exact .cons hstepClean (ih hr' (List.filterMap_eq_nil_iff.mpr htail))

theorem steps_of_runs {r r' : MemberRun} {ps : List Pending} (h : Runs Clean r ps r') :
    r.steps ps = (none, r') := by
  induction h with
  | nil => rfl
  | cons hstep _ ih => simp only [steps, hstep.step, ih]

/-- What a run of members has found so far, but for the order of types. -/
structure Sim (r u : MemberRun) : Prop where
  site : r.stage.site.Alike u.stage.site
  types : r.types.Perm u.types
  claimed : ∀ n, n ∈ r.stage.claimed.names ↔ n ∈ u.stage.claimed.names
  errors : r.errors = u.errors

/-- What holds before a member's turn. -/
def Inv (r : MemberRun) (ps : List Pending) : Prop :=
  r.stage.site.Sound ps ∧ r.stage.site.machine.isSome

theorem Clean.inv {r r' : MemberRun} {p : Pending} {ps : List Pending} (h : r.Inv (p :: ps))
    (hstep : r.Clean p r') : r'.Inv ps ∧ r'.stage.site.owner = r.stage.site.owner := by
  obtain ⟨c, site, -, hc, rfl⟩ := hstep
  obtain ⟨m, hm⟩ := Option.isSome_iff_exists.mp h.2
  have hsettled := h.1.awaits.settled p List.mem_cons_self
  have hsound := (Pending.sound_compileMember h.1).2
  obtain ⟨m', hm', -⟩ := p.gains_compileMember hm hsettled
  have howner := (Pending.outer_compileMember p hsettled (s := r.stage.site)).2
  rw [hc] at hsound hm' howner
  exact ⟨⟨hsound, by rw [show site.machine = some m' from hm']; rfl⟩, howner⟩

theorem Inv.shuffled {r : MemberRun} {passes : Pending → Pending → Prop} {ps qs : List Pending}
    (h : r.Inv ps) (hl : Shuffled (· = ·) passes ps qs) : r.Inv qs :=
  ⟨h.1.shuffled (by rintro p _ rfl; rfl) (by rintro p _ rfl hp; exact hp) hl, h.2⟩

theorem Clean.types {r : MemberRun} {p : Pending} {ps : List Pending} (h : r.Inv (p :: ps))
    {c : Compiled} {site : Site} {claimed : NameSet} {errors : List DeclError}
    (hc : p.compileMember r.stage.site = (.ok c, site)) :
    MemberRun.types ⟨⟨site, claimed⟩, errors⟩ =
      r.types ++ (Turn.output ⟨p.decl, r.stage.site.table, .ok c⟩).types := by
  obtain ⟨m, hm⟩ := Option.isSome_iff_exists.mp h.2
  obtain ⟨m', hm', hgains⟩ := p.gains_compileMember hm (h.1.awaits.settled p List.mem_cons_self)
  rw [hc] at hm' hgains
  dsimp only at hm' hgains
  unfold MemberRun.types
  dsimp only
  rw [hm, hm']
  exact hgains.types

/-- Runs that found the same so far find the same next. -/
theorem Sim.step {r r' u : MemberRun} {p : Pending} {ps qs : List Pending} (hr : r.Inv (p :: ps))
    (hu : u.Inv (p :: qs)) (hsim : r.Sim u) (h : r.Clean p r') :
    ∃ u', u.Clean p u' ∧ r'.Sim u' := by
  obtain ⟨c, site, hfree, hc, rfl⟩ := h
  have hblind := Pending.blind_of_alike (Pending.not_machine_of_compileMember hc) hsim.site
  obtain ⟨site', hc', halike⟩ := Pending.compileMember_blind hblind hr.1 hu.1 hc
  rw [hsim.site.owner] at hfree
  refine ⟨_, ⟨c, site', fun n hn hmem => hfree n hn ((hsim.claimed n).mpr hmem), hc', rfl⟩,
    halike hsim.site, ?_, fun n => ?_, hsim.errors⟩
  · rw [Clean.types hr hc, Clean.types hu hc']
    exact hsim.types.append_right _
  · simp only [NameSet.mem_names_addAll, hsim.site.owner, hsim.claimed n]

/-- Two neighbours of which one is a type can have their turns in the other order. -/
theorem Sim.swap {r r₁ r₂ : MemberRun} {a b : Pending} {l : List Pending}
    (hr : r.Inv (a :: b :: l)) (hr' : r.Inv (b :: a :: l)) (hp : a.IsType ∨ b.IsType)
    (ha : r.Clean a r₁) (hb : r₁.Clean b r₂) :
    ∃ u₁ u₂, r.Clean b u₁ ∧ u₁.Clean a u₂ ∧ r₂.Sim u₂ := by
  obtain ⟨hr₁, howner₁⟩ := ha.inv hr
  obtain ⟨ca, s₁, hfree, hca, rfl⟩ := ha
  obtain ⟨cb, s₂, hfree', hcb, rfl⟩ := hb
  obtain ⟨v₁, v₂, hv₁, hv₂, halike⟩ := Pending.compileMember_swap hr.1 hr'.1 hp hca hcb
  dsimp only at howner₁ hfree' hcb
  rw [howner₁] at hfree'
  have hfreeb : ∀ n ∈ (b.decl.outputFiles r.stage.site.owner).names, n ∉ r.stage.claimed.names :=
    fun n hn hmem => hfree' n hn (NameSet.mem_names_addAll.mpr (.inr hmem))
  have hb : r.Clean b _ := ⟨cb, v₁, hfreeb, hv₁, rfl⟩
  obtain ⟨hu₁, howner⟩ := hb.inv hr'
  dsimp only at howner
  refine ⟨_, _, hb, ⟨ca, v₂, ?_, hv₂, rfl⟩, halike, ?_, fun n => ?_, rfl⟩
  · rw [howner]
    intro n hn hmem
    rcases NameSet.mem_names_addAll.mp hmem with hmem | hmem
    · exact hfree' n hmem (NameSet.mem_names_addAll.mpr (.inl hn))
    · exact hfree n hn hmem
  · rw [Clean.types hr₁ hcb, Clean.types hr hca, Clean.types hu₁ hv₂, Clean.types hr' hv₁,
      List.append_assoc, List.append_assoc]
    exact List.perm_append_comm.append_left _
  · simp only [NameSet.mem_names_addAll, howner, howner₁]
    exact or_left_comm

/-- Members do not notice how types stand among those that are still to come. -/
theorem oblivious : Oblivious Clean Inv Sim (· = ·)
    (fun a b : Pending => a.IsType ∨ b.IsType) where
  same_refl := fun _ => rfl
  sim_refl := fun r => ⟨.refl, .refl _, fun _ => Iff.rfl, rfl⟩
  sim_trans := fun h h' => ⟨h.site.trans h'.site, h.types.trans h'.types,
    fun n => (h.claimed n).trans (h'.claimed n), h.errors.trans h'.errors⟩
  inv_step := fun h hstep => (hstep.inv h).1
  inv_shuffled := fun h hl => h.shuffled hl
  step_same := by
    rintro r r' u p _ ps qs hr hu hsim rfl hstep
    exact hsim.step hr hu hstep
  step_swap := by
    intro r r₁ r₂ a b l hr hp ha hb
    have hswap : Shuffled (· = ·) (fun a b : Pending => a.IsType ∨ b.IsType) (a :: b :: l)
      (b :: a :: l) := .swap hp
    exact Sim.swap hr (hr.shuffled hswap) hp ha hb

end MemberRun

/-! ### Machines -/

namespace MachineDecl

theorem not_rejected {s : Site} {p : Pending} {c : Compiled} {s' : Site}
    (h : p.compileMember s = (.ok c, s')) : ¬p.Rejected := by
  rintro ⟨d, e, rfl⟩
  cases h

theorem clean_run {t : SymbolTable} (ht : t.Sound) {d : MachineDecl Decl} {c : CompiledMachine}
    (hc : (d.compile t).1 = .ok c) (herrors : c.errors = []) :
    Runs MemberRun.Clean (d.start (d.inner t).1) (d.inner t).2 (d.run t).2 := by
  have hfailures := (d.gains_compile ht hc).2
  rw [herrors] at hfailures
  exact MemberRun.runs_of_steps (sound_start ht d) hfailures.symm

/-- The members of a machine wait in the order that they stand in, their types registered alike. -/
theorem inner_shuffled {t u : SymbolTable} (h : t.Alike u) {d d' : MachineDecl Decl}
    (hd : d.Shuffles d')
    (hcount : t.opened.count (some d.ident) = u.opened.count (some d.ident))
    (hrejected : ∀ p ∈ (d.inner t).2, ¬p.Rejected) :
    (d.inner t).1.Alike (d'.inner u).1 ∧
      Shuffled (· = ·) (fun a b : Pending => a.IsType ∨ b.IsType) (d.inner t).2 (d'.inner u).2 := by
  obtain ⟨members, hl, rfl⟩ := hd
  have hid : (t.push d.ident).top.id = (u.push d.ident).top.id := by
    show FrameId.mk (some d.ident) _ = FrameId.mk (some d.ident) _
    rw [hcount]
  obtain ⟨halike, hmembers, hmembers'⟩ := Decl.predeclareAll_shuffled (h.push d.ident) hid
    (by rintro a _ rfl; rfl) hl hrejected
  refine ⟨halike, ?_⟩
  unfold inner
  rw [hmembers, hmembers']
  refine hl.map (by rintro a _ rfl; rfl) ?_
  rintro a b (⟨d, rfl⟩ | ⟨d, rfl⟩)
  · exact .inl ⟨_, _, rfl⟩
  · exact .inr ⟨_, _, rfl⟩

/-- A machine whose members all compile compiles into the same machine when types are moved among the
members, on every table that it cannot tell from the first. -/
theorem compile_shuffled {t u : SymbolTable} (ht : t.Sound) (hu : u.Sound) (h : t.Alike u)
    {d d' : MachineDecl Decl} (hd : d.Shuffles d')
    (hcount : t.opened.count (some d.ident) = u.opened.count (some d.ident)) {c : CompiledMachine}
    (hc : (d.compile t).1 = .ok c) (herrors : c.errors = []) :
    ∃ c', (d'.compile u).1 = .ok c' ∧ c'.errors = [] ∧ c.machine.Reorders c'.machine := by
  have hruns := clean_run ht hc herrors
  obtain ⟨r, hr, hm, hfailures⟩ := compile_eq_ok.mp hc
  rw [hr] at hruns
  obtain ⟨halike, hl⟩ := inner_shuffled h hd hcount fun p hp => by
    obtain ⟨_, _, c', site, -, hsite, -⟩ := hruns.forall_mem p hp
    exact not_rejected hsite
  have hinitial : d'.initial = d.initial := by
    obtain ⟨members, -, rfl⟩ := hd
    rfl
  have hsim : MemberRun.Sim (d.start (d.inner t).1) (d'.start (d'.inner u).1) := by
    unfold start
    rw [hinitial]
    exact ⟨⟨halike, rfl⟩, .refl _, fun _ => Iff.rfl, rfl⟩
  obtain ⟨r', hruns', hsim'⟩ :=
    MemberRun.oblivious.runs hl ⟨sound_start ht d, rfl⟩ ⟨sound_start hu d', rfl⟩ hsim hruns
  obtain ⟨m', hm', hcore⟩ : ∃ m', r'.stage.site.machine = some m' ∧ c.machine.core = m'.core := by
    have hcore := hsim'.site.core
    rw [hm] at hcore
    obtain ⟨m', hm', hcore⟩ := Option.map_eq_some_iff.mp hcore.symm
    exact ⟨m', hm', hcore.symm⟩
  have htypes := hsim'.types
  unfold MemberRun.types at htypes
  rw [hm, hm'] at htypes
  refine ⟨⟨m', r'.errors⟩, compile_eq_ok.mpr ⟨r', MemberRun.steps_of_runs hruns', hm', rfl⟩, ?_,
    hcore, htypes⟩
  rw [← herrors, ← hfailures]
  exact hsim'.errors.symm

end MachineDecl

end Coherence
