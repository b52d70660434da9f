import Coherence.Proofs.MemberOrder
import Coherence.Proofs.UnitNames
/-!
# Declarations that may pass each other

Types may be used before they are declared, and machines leave no trace among the symbols. So types may
be moved anywhere in a list of declarations, and inside a machine anywhere among its members, and
machines may pass each other and types (`Rearranged`). Two neighbours that may pass each other compile
into the same in both orders (`Pending.compile_swap`).
-/

namespace Coherence

/-! ### Rearrangements -/

def Decl.IsMachine (d : Decl) : Prop := ∃ d', d = .machine d'

/-- The same declaration, but for the places of types inside a machine. -/
def Decl.Same (d d' : Decl) : Prop :=
  d = d' ∨ ∃ m m', d = .machine m ∧ d' = .machine m' ∧ m.Shuffles m'

/-- The declarations may pass each other: one is a type, or both are machines. -/
def Decl.Passes (d d' : Decl) : Prop := d.IsType ∨ d'.IsType ∨ d.IsMachine ∧ d'.IsMachine

theorem Decl.Same.symm {d d' : Decl} (h : d.Same d') : d'.Same d := by
  rcases h with rfl | ⟨m, m', rfl, rfl, hm⟩
  · exact .inl rfl
  · exact .inr ⟨m', m, rfl, rfl, hm.symm⟩

theorem Decl.Passes.symm {d d' : Decl} (h : d.Passes d') : d'.Passes d := by
  rcases h with h | h | ⟨h, h'⟩
  · exact .inr (.inl h)
  · exact .inl h
  · exact .inr (.inr ⟨h', h⟩)

/-- The declarations of the one list in another order: types were moved anywhere, machines past each
other and past types, and types inside their machines. -/
def Rearranged (ds ds' : List Decl) : Prop := Shuffled Decl.Same Decl.Passes ds ds'

namespace Rearranged

theorem refl (ds : List Decl) : Rearranged ds ds := Shuffled.refl (fun _ => .inl rfl) ds

/-- Types may go to any place in any order. -/
theorem of_types {ds ds' : List Decl}
    (htypes : (ds.filter (Decl.IsType ·)).Perm (ds'.filter (Decl.IsType ·)))
    (hrest : Rearranged (ds.filter (¬Decl.IsType ·)) (ds'.filter (¬Decl.IsType ·))) :
    Rearranged ds ds' :=
  Shuffled.of_filter Decl.IsType Decl.Same.symm (fun _ => .inl rfl) Decl.Passes.symm
    (fun _ _ h => .inr (.inl h)) htypes hrest

/-- Machines may be put in any order between two functions. -/
theorem of_machines {ms ms' : List Decl} (hms : ∀ d ∈ ms, d.IsMachine) (hp : ms.Perm ms')
    (before after : List Decl) : Rearranged (before ++ ms ++ after) (before ++ ms' ++ after) := by
  have hpass : ∀ d ∈ ms, ∀ d' ∈ ms, d.Passes d' := fun d hd d' hd' =>
    .inr (.inr ⟨hms d hd, hms d' hd'⟩)
  have hmiddle : Rearranged ms ms' := .of_perm (fun _ => .inl rfl) hp hpass
  exact (hmiddle.append_left (fun _ => .inl rfl) before).append_right (fun _ => .inl rfl) after

/-- A machine may be given with its types at other places. -/
theorem of_members {d d' : MachineDecl Decl} (h : d.Shuffles d') (before after : List Decl) :
    Rearranged (before ++ .machine d :: after) (before ++ .machine d' :: after) :=
  Shuffled.append_left (fun _ => .inl rfl) (.cons (.inr ⟨d, d', rfl, rfl, h⟩) (refl after)) before

end Rearranged

/-- The same output, but for the order of types, machines and diagnostics. -/
structure Output.Reorders (o o' : Output) : Prop where
  functions : o.functions = o'.functions
  types : o.types.Perm o'.types
  machines : Shuffled StateMachine.Reorders (fun _ _ => True) o.machines o'.machines
  diagnostics : o.diagnostics.Perm o'.diagnostics

/-- The same result, without failed members. -/
def Compiled.Reorders : Compiled → Compiled → Prop
  | .func f, .func f' => f = f'
  | .type d, .type d' => d = d'
  | .machine c, .machine c' => c.machine.Reorders c'.machine ∧ c.errors = [] ∧ c'.errors = []
  | _, _ => False

/-- No member of it failed. -/
def Compiled.Flawless : Compiled → Prop
  | .machine c => c.errors = []
  | .func _ => True
  | .type _ => True

namespace StateMachine.Reorders

theorem refl (m : StateMachine) : m.Reorders m := ⟨rfl, .refl _⟩

variable {m m' : StateMachine}

theorem ident (h : m.Reorders m') : m.ident = m'.ident := by
  show m.core.ident = m'.core.ident
  rw [h.core]

theorem functions (h : m.Reorders m') : m.functions = m'.functions := by
  show m.core.functions = m'.core.functions
  rw [h.core]

theorem attributes (h : m.Reorders m') : m.attributes = m'.attributes := by
  show m.core.attributes = m'.core.attributes
  rw [h.core]

end StateMachine.Reorders

namespace Output.Reorders

theorem refl (o : Output) : o.Reorders o :=
  ⟨rfl, .refl _, .refl StateMachine.Reorders.refl _, .refl _⟩

variable {o o' p p' : Output}

theorem trans {o'' : Output} (h : o.Reorders o') (h' : o'.Reorders o'') : o.Reorders o'' :=
  ⟨h.functions.trans h'.functions, h.types.trans h'.types, h.machines.trans h'.machines,
    h.diagnostics.trans h'.diagnostics⟩

theorem append (h : o.Reorders o') (h' : p.Reorders p') : (o.append p).Reorders (o'.append p') where
  functions := by rw [Output.append, Output.append, h.functions, h'.functions]
  types := h.types.append h'.types
  machines := h.machines.append StateMachine.Reorders.refl h'.machines
  diagnostics := h.diagnostics.append h'.diagnostics

theorem append_comm (h : o.functions = [] ∨ p.functions = []) :
    (o.append p).Reorders (p.append o) where
  functions := by
    rcases h with h | h <;> simp [Output.append, h]
  types := List.perm_append_comm
  machines := Shuffled.append_comm StateMachine.Reorders.refl (fun _ _ => trivial) _ _
  diagnostics := List.perm_append_comm

end Output.Reorders

/-! ### One declaration -/

namespace Pending

def Same (p q : Pending) : Prop :=
  p = q ∨ ∃ d d', p = .machine d ∧ q = .machine d' ∧ d.Shuffles d'

def IsMachine (p : Pending) : Prop := ∃ d, p = .machine d

def Passes (p q : Pending) : Prop := p.IsType ∨ q.IsType ∨ p.IsMachine ∧ q.IsMachine

/-- The frames that a declaration opens in this name. -/
def opens (p : Pending) (name : String) : Nat :=
  match p with
  | .machine d => if d.ident = name then 1 else 0
  | .func _ => 0
  | .type _ _ => 0

variable {s v s' : Site} {p q : Pending} {ps qs : List Pending} {c : Compiled}

theorem opens_same (h : p.Same q) (name : String) : p.opens name = q.opens name := by
  rcases h with rfl | ⟨d, d', rfl, rfl, members, -, rfl⟩ <;> rfl

theorem count_compile (hm : s.machine = none) (hs : s.Sound (p :: ps)) (name : String) :
    (p.compile s).2.table.opened.count (some name) =
      s.table.opened.count (some name) + p.opens name := by
  cases p with
  | func d =>
      exact (d.marked_compile s).count_opened (by simp)
  | machine d =>
      rw [compile_machine hm]
      by_cases hname : d.ident = name
      · subst hname
        simp only [opens, if_true]
        exact d.count_opened_compile s.table
      · simp only [opens, hname, if_false]
        exact (d.kept_compile s.table).toMarked.count_opened (by simp [hname])
  | type d state =>
      have hsettled := hs.awaits.settled _ List.mem_cons_self
      cases state with
      | pending => exact hsettled.elim
      | rejected e => rfl
      | declared type =>
          exact (TypeDecl.kept_compileDeclared s type).toMarked.count_opened (by simp)

/-- All but functions leave what others see. -/
theorem alike_compile (hm : s.machine = none) (hs : s.Sound (p :: ps)) (hp : ∀ d, p ≠ .func d) :
    s.Alike (p.compile s).2 := by
  cases p with
  | func d => exact absurd rfl (hp d)
  | type d state => exact alike_compileMember ⟨d, state, rfl⟩ (hs.awaits.settled _ List.mem_cons_self)
  | machine d =>
      rw [compile_machine hm]
      exact ⟨.of_frames (d.kept_compile s.table).frames.symm, rfl⟩

theorem lookup_compile (hm : s.machine = none) (hs : s.Sound (p :: ps)) (name : String) :
    (p.compile s).2.table.lookup name .type = s.table.lookup name .type := by
  by_cases hp : ∀ d, p ≠ .func d
  · rw [(alike_compile hm hs hp).table.lookup]
  · obtain ⟨d, rfl⟩ : ∃ d, p = .func d := by simpa using hp
    exact d.lookup_compile s name

/-- A declaration that compiles without failed members compiles into the same at a site that it cannot
tell from the first. Sites that were alike stay so. -/
theorem compile_blind (hpq : p.Same q) (hm : s.machine = none) (hm' : v.machine = none)
    (h : p.Blind s v) (hs : s.Sound (p :: ps)) (hv : v.Sound (q :: qs))
    (hc : p.compile s = (.ok c, s')) (hflawless : c.Flawless) :
    ∃ c' v', q.compile v = (.ok c', v') ∧ c.Reorders c' ∧ (s.Alike v → s'.Alike v') := by
  by_cases hp : ∀ d, p ≠ .machine d
  · obtain rfl : p = q := by
      rcases hpq with rfl | ⟨d, -, rfl, -, -⟩
      · rfl
      · exact absurd rfl (hp d)
    rw [compile_eq_compileMember hp] at hc
    obtain ⟨v', hv', halike⟩ := compileMember_blind h hs hv hc
    refine ⟨c, v', by rw [compile_eq_compileMember hp]; exact hv', ?_, halike⟩
    cases c with
    | func f => rfl
    | type d => rfl
    | machine m => exact absurd (congrArg Prod.fst hc) (compileMember_ne_machine s p m)
  · obtain ⟨d, rfl⟩ : ∃ d, p = .machine d := by simpa using hp
    obtain ⟨d', rfl, hd⟩ : ∃ d', q = .machine d' ∧ d.Shuffles d' := by
      rcases hpq with rfl | ⟨d₁, d', heq, rfl, hd⟩
      · exact ⟨d, rfl, .refl d⟩
      · cases heq
        exact ⟨d', rfl, hd⟩
    rw [compile_machine hm] at hc
    obtain ⟨m, hmachine, rfl⟩ := map_eq_ok.mp (congrArg Prod.fst hc)
    obtain ⟨m', hmachine', herrors, hreorders⟩ :=
      MachineDecl.compile_shuffled hs.table hv.table h.1.table hd h.2 hmachine hflawless
    refine ⟨.machine m', { v with table := (d'.compile v.table).2 }, ?_,
      ⟨hreorders, hflawless, herrors⟩, fun halike => ?_⟩
    · rw [compile_machine hm', hmachine']
      rfl
    · rw [← show _ = s' from congrArg Prod.snd hc]
      have hleft : s.Alike { s with table := (d.compile s.table).2 } :=
        ⟨.of_frames (d.kept_compile s.table).frames.symm, rfl⟩
      have hright : v.Alike { v with table := (d'.compile v.table).2 } :=
        ⟨.of_frames (d'.kept_compile v.table).frames.symm, rfl⟩
      exact hleft.symm.trans (halike.trans hright)

theorem blind_of_alike_count (h : s.Alike v) (hcount : ∀ d, p = .machine d →
      s.table.opened.count (some d.ident) = v.table.opened.count (some d.ident)) : p.Blind s v := by
  cases p with
  | func d => exact h
  | type d state => exact fun name => by rw [h.table.lookup]
  | machine d => exact ⟨h, hcount d rfl⟩

theorem Passes.symm (h : p.Passes q) : q.Passes p := by
  rcases h with h | h | ⟨h, h'⟩
  · exact .inr (.inl h)
  · exact .inl h
  · exact .inr (.inr ⟨h', h⟩)

theorem passes_not_func (h : p.Passes q) : (∀ d, p ≠ .func d) ∨ ∀ d, q ≠ .func d := by
  rcases h with ⟨d, state, rfl⟩ | ⟨d, state, rfl⟩ | ⟨⟨d, rfl⟩, -⟩
  · exact .inl fun _ h => by cases h
  · exact .inr fun _ h => by cases h
  · exact .inl fun _ h => by cases h

/-- The second of two declarations that may pass each other cannot tell if the first was there. -/
theorem blind_of_passes (hm : s.machine = none) (hs : s.Sound (p :: ps)) (hpass : p.Passes q)
    (hne : ∀ d d', p = .machine d → q = .machine d' → d.ident ≠ d'.ident) :
    q.Blind (p.compile s).2 s := by
  by_cases hq : q.IsType
  · obtain ⟨d, state, rfl⟩ := hq
    exact fun name => lookup_compile hm hs name
  · have hp : ∀ d, p ≠ .func d := by
      rcases hpass with ⟨d, state, rfl⟩ | hq' | ⟨⟨d, rfl⟩, -⟩
      · exact fun _ h => by cases h
      · exact absurd hq' hq
      · exact fun _ h => by cases h
    refine blind_of_alike_count (alike_compile hm hs hp).symm fun d hd => ?_
    rw [count_compile hm hs]
    cases p with
    | func d => exact absurd rfl (hp d)
    | type d state => rfl
    | machine d' => simp [opens, hne d' d rfl hd]

/-- Two declarations that may pass each other can change places. -/
theorem compile_swap {a b : Pending} {l : List Pending} {s₁ s₂ : Site} {ca cb : Compiled}
    (hm : s.machine = none) (hs : s.Sound (a :: b :: l)) (hs' : s.Sound (b :: a :: l))
    (hp : a.Passes b) (hne : ∀ d d', a = .machine d → b = .machine d' → d.ident ≠ d'.ident)
    (ha : a.compile s = (.ok ca, s₁)) (hb : b.compile s₁ = (.ok cb, s₂)) (hca : ca.Flawless)
    (hcb : cb.Flawless) :
    ∃ ca' cb' v₁ v₂, b.compile s = (.ok cb', v₁) ∧ a.compile v₁ = (.ok ca', v₂) ∧
      ca.Reorders ca' ∧ cb.Reorders cb' ∧ s₂.Alike v₂ := by
  obtain ⟨-, hs₁, hm₁, -⟩ := sound_compile hs hm
  have hblind := blind_of_passes hm hs hp hne
  rw [ha] at hs₁ hm₁ hblind
  obtain ⟨cb', v₁, hv₁, hreorders, halike₁⟩ :=
    compile_blind (.inl rfl) hm₁ hm hblind hs₁ hs' hb hcb
  obtain ⟨-, hsv₁, hmv₁, -⟩ := sound_compile hs' hm
  have hblind' := blind_of_passes hm hs' hp.symm fun d d' hd hd' => (hne d' d hd' hd).symm
  rw [hv₁] at hsv₁ hmv₁ hblind'
  obtain ⟨ca', v₂, hv₂, hreorders', halike₂⟩ :=
    compile_blind (.inl rfl) hm hmv₁ hblind'.symm hs hsv₁ ha hca
  refine ⟨ca', cb', v₁, v₂, hv₁, hv₂, hreorders', hreorders, ?_⟩
  -- One of the two leaves its site as it was, so both orders end where the other one ends.
  rcases passes_not_func hp with hfunc | hfunc
  · have hleft := alike_compile hm hs hfunc
    have hright := alike_compile hmv₁ hsv₁ hfunc
    rw [ha] at hleft
    rw [hv₂] at hright
    exact (halike₁ hleft.symm).trans hright
  · have hleft := alike_compile hm₁ hs₁ hfunc
    have hright := alike_compile hm hs' hfunc
    rw [hb] at hleft
    rw [hv₁] at hright
    exact hleft.symm.trans (halike₂ hright)

end Pending

/-! ### Results and outputs -/

namespace Compiled.Reorders

variable {c c' : Compiled}

theorem flawless (h : c.Reorders c') : c'.Flawless := by
  cases c <;> cases c' <;> first | exact h.elim | trivial | exact h.2.2

/-- Results that are the same add the same to the output. -/
theorem output (h : c.Reorders c') (d d' : Decl) (t t' : SymbolTable) :
    (Turn.output ⟨d, t, .ok c⟩).Reorders (Turn.output ⟨d', t', .ok c'⟩) := by
  cases c with
  | func f =>
      cases c' with
      | func f' =>
          cases (show f = f' from h)
          exact .refl _
      | type _ => exact h.elim
      | machine _ => exact h.elim
  | type d =>
      cases c' with
      | type d' =>
          cases (show d = d' from h)
          exact .refl _
      | func _ => exact h.elim
      | machine _ => exact h.elim
  | machine m =>
      cases c' with
      | func _ => exact h.elim
      | type _ => exact h.elim
      | machine m' =>
          obtain ⟨hm, herrors, herrors'⟩ := h
          refine ⟨rfl, .refl _, .cons hm .nil, ?_⟩
          simp only [Turn.output, herrors, herrors', hm.functions]
          exact .refl _

end Compiled.Reorders

theorem Pending.functions_output {s s' : Site} {p : Pending} {c : Compiled}
    (hm : s.machine = none) (hc : p.compile s = (.ok c, s')) (hp : ∀ d, p ≠ .func d)
    (d : Decl) (t : SymbolTable) : (Turn.output ⟨d, t, .ok c⟩).functions = [] := by
  cases p with
  | func d => exact absurd rfl (hp d)
  | type d state =>
      obtain ⟨_, -, rfl⟩ := map_eq_ok.mp (congrArg Prod.fst hc)
      rfl
  | machine d =>
      rw [compile_machine hm] at hc
      obtain ⟨_, -, rfl⟩ := map_eq_ok.mp (congrArg Prod.fst hc)
      rfl

/-- Moving types inside a machine does not change which units it owes. -/
theorem Pending.mem_outputFiles_same {p q : Pending} (h : p.Same q) (n : String) :
    n ∈ (p.decl.outputFiles none).names ↔ n ∈ (q.decl.outputFiles none).names := by
  rcases h with rfl | ⟨d, d', rfl, rfl, members, hl, rfl⟩
  · exact Iff.rfl
  · have hperm := hl.perm_filterMap (f := some) (by rintro a _ rfl; rfl)
    rw [List.filterMap_some, List.filterMap_some] at hperm
    simp only [Pending.decl, Decl.mem_outputFiles_machine, hperm.mem_iff]

end Coherence
