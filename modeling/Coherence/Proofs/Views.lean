import Coherence.Proofs.Claims
import Coherence.Proofs.Registration
/-!
# Sites that look the same to a declaration

Two sites are `Alike` if their tables are and their machines differ in the order of their types at
most. A function that compiles at one of them compiles into the same at the other; a type sees even
less, only the types in scope (`Pending.Blind`). What a declaration leaves of a site depends on what it
compiled into, and no declaration changes the types in scope (`Pending.lookup_compileMember`).
-/

namespace Coherence

open SymbolTable (Kept Alike)

/-- The machine without its types. -/
def StateMachine.core (m : StateMachine) : StateMachine := { m with types := [] }

theorem Site.owner_congr {s v : Site}
    (h : s.machine.map StateMachine.core = v.machine.map StateMachine.core) : s.owner = v.owner := by
  have hident : ∀ o : Option StateMachine,
      o.map StateMachine.ident = (o.map StateMachine.core).map StateMachine.ident := by
    intro o
    cases o <;> rfl
  rw [owner, owner, hident s.machine, hident v.machine, h]

theorem ownFunc_congr {m n : Option StateMachine}
    (h : m.map StateMachine.core = n.map StateMachine.core) : ownFunc m = ownFunc n := by
  have hcore : ∀ o : Option StateMachine, ownFunc o = ownFunc (o.map StateMachine.core) := by
    intro o
    cases o <;> rfl
  rw [hcore m, hcore n, h]

/-- Every name leads to the same symbol at both sites, inside the same machine. -/
structure Site.Alike (s v : Site) : Prop where
  table : s.table.Alike v.table
  core : s.machine.map StateMachine.core = v.machine.map StateMachine.core

namespace Site.Alike

variable {s v w : Site}

theorem refl : s.Alike s := ⟨.refl, rfl⟩

theorem symm (h : s.Alike v) : v.Alike s := ⟨h.table.symm, h.core.symm⟩

theorem trans (h : s.Alike v) (h' : v.Alike w) : s.Alike w :=
  ⟨h.table.trans h'.table, h.core.trans h'.core⟩

theorem owner (h : s.Alike v) : s.owner = v.owner := owner_congr h.core

end Site.Alike

namespace StateMachine

theorem addFunc_core {m n m' : StateMachine} (h : m.core = n.core) {f : Func}
    (ha : m.addFunc f = .ok m') :
    ∃ n', n.addFunc f = .ok n' ∧ m'.core = n'.core ∧ (m = n → m' = n') := by
  have hroster : m.roster = n.roster := by
    show m.core.roster = n.core.roster
    rw [h]
  obtain ⟨roster, hadd, rfl⟩ := addFunc_eq_ok.mp ha
  rw [hroster] at hadd
  refine ⟨_, addFunc_eq_ok.mpr ⟨roster, hadd, rfl⟩,
    congrArg (fun k : StateMachine => { k with roster }) h, ?_⟩
  rintro rfl
  rfl

end StateMachine

/-! ### Functions -/

namespace FuncDecl

theorem compile_of_toFunc {s s' : Site} {d : FuncDecl} {f : Func} (h : (d.toFunc s).1 = .ok f)
    (ha : { s with table := (d.toFunc s).2 : Site }.addFunc f = .ok s') :
    d.compile s = (.ok f, s') := by
  unfold compile
  cases ht : d.toFunc s with
  | mk result u =>
      rw [ht] at h ha
      dsimp only at h ha
      subst h
      simp only [ha]

/-- A function that compiles at a site compiles at one where further types are registered, in a machine
with the same functions. -/
theorem compile_precedes {later : List TypeSymbol} {s v s' : Site}
    (h : s.table.Precedes later v.table)
    (hcore : s.machine.map StateMachine.core = v.machine.map StateMachine.core) {d : FuncDecl}
    {f : Func} (hc : d.compile s = (.ok f, s')) :
    ∃ v', d.compile v = (.ok f, v') ∧ s'.table.Precedes later v'.table ∧
      s'.machine.map StateMachine.core = v'.machine.map StateMachine.core ∧
      (s.machine = v.machine → s'.machine = v'.machine) := by
  have hresult := toFunc_below h.below (Site.owner_congr hcore) (ownFunc_congr hcore) d
  have hkept := kept_toFunc v d
  obtain ⟨u, -, hk, ⟨e, hs, -⟩ | ⟨g, hg, ⟨hnone, hfree, hs⟩ | ⟨m, m', hm, ha, hs⟩⟩⟩ :=
    compile_cases s d <;> rw [hs] at hc <;> cases hc
  · have hv : v.machine = none := by
      rw [hnone] at hcore
      exact Option.map_eq_none_iff.mp hcore.symm
    have htable : u.Precedes later (d.toFunc v).2 := h.of_frames hk.frames hkept.frames
    have hadd : { v with table := (d.toFunc v).2 : Site }.addFunc f =
        .ok { v with table := (d.toFunc v).2.bind (.func f) } := by
      unfold Site.addFunc
      rw [hv]
      refine map_eq_ok.mpr ⟨_, SymbolTable.declare_eq_ok.mpr ⟨?_, rfl⟩, rfl⟩
      rw [← htable.find? _ (by simp [Symbol.kind])]
      exact hfree
    exact ⟨_, compile_of_toFunc (hresult f hg) hadd, htable.bind (by simp [Symbol.kind]), hcore, id⟩
  · obtain ⟨n, hn, hcore'⟩ : ∃ n, v.machine = some n ∧ m.core = n.core := by
      rw [hm] at hcore
      obtain ⟨n, hn, hcore⟩ := Option.map_eq_some_iff.mp hcore.symm
      exact ⟨n, hn, hcore.symm⟩
    obtain ⟨n', hn', hcore'', heq⟩ := StateMachine.addFunc_core hcore' ha
    have hadd : { v with table := (d.toFunc v).2 : Site }.addFunc f =
        .ok { table := (d.toFunc v).2, machine := some n' } := by
      unfold Site.addFunc
      rw [hn]
      exact map_eq_ok.mpr ⟨n', hn', rfl⟩
    refine ⟨_, compile_of_toFunc (hresult f hg) hadd, h.of_frames hk.frames hkept.frames,
      congrArg some hcore'', fun hsame => ?_⟩
    rw [hm, hn] at hsame
    exact congrArg some (heq (Option.some.inj hsame))

theorem compile_congr {s v s' : Site} (h : s.Alike v) {d : FuncDecl} {f : Func}
    (hc : d.compile s = (.ok f, s')) : ∃ v', d.compile v = (.ok f, v') ∧ s'.Alike v' := by
  obtain ⟨v', hv', hforth, hcore, -⟩ := compile_precedes (.of_within (.of_alike h.table)) h.core hc
  -- Each of the two sites sees what the other one sees.
  obtain ⟨s'', hs'', hback, -⟩ :=
    compile_precedes (.of_within (.of_alike h.table.symm)) h.core.symm hv'
  rw [hc] at hs''
  cases hs''
  exact ⟨v', hv', hforth.within.antisymm hback.below, hcore⟩

theorem lookup_compile (s : Site) (d : FuncDecl) (name : String) :
    (d.compile s).2.table.lookup name .type = s.table.lookup name .type := by
  obtain ⟨u, hk, h | ⟨f, -, h⟩⟩ := d.table_compile s <;> rw [h]
  · exact hk.lookup name .type
  · rw [SymbolTable.lookup_bind, if_neg (by simp [Symbol.key, Symbol.kind])]
    exact hk.lookup name .type

end FuncDecl

/-! ### Types -/

namespace TypeDecl

variable {s v : Site} {type : TypeSymbol}

/-- A type leaves all as it was, but for its place among the machine's types. -/
theorem alike_compileDeclared (s : Site) (type : TypeSymbol) :
    s.Alike (compileDeclared s type).2 := by
  obtain ⟨u, hk, ⟨e, hc, -⟩ | hc⟩ := compileDeclared_cases s type <;> rw [hc]
  · exact ⟨.of_frames hk.frames.symm, rfl⟩
  · refine ⟨.of_frames hk.frames.symm, ?_⟩
    show _ = (s.machine.map fun m => m.addType (u.define type)).map StateMachine.core
    cases s.machine <;> rfl

theorem foundFields_of_unseen {t : SymbolTable} (h : ¬t.Records type.key) :
    t.foundFields type = [] := by
  unfold SymbolTable.foundFields
  rw [Decidable.not_not.mp h]
  rfl

end TypeDecl

/-! ### Declarations -/

namespace Pending

/-- The declaration cannot tell the sites apart. -/
def Blind (p : Pending) (s v : Site) : Prop :=
  match p with
  | .func _ => s.Alike v
  | .type _ _ => ∀ name, s.table.lookup name .type = v.table.lookup name .type
  | .machine d => s.Alike v ∧
      s.table.opened.count (some d.ident) = v.table.opened.count (some d.ident)

theorem Blind.symm {p : Pending} {s v : Site} (h : p.Blind s v) : p.Blind v s := by
  cases p with
  | func d => exact Site.Alike.symm h
  | type d state => exact fun name => (h name).symm
  | machine d => exact ⟨h.1.symm, h.2.symm⟩

/-- The declaration is a type. -/
def IsType (p : Pending) : Prop := ∃ d state, p = .type d state

variable {p : Pending} {s v s' : Site} {ps qs : List Pending} {c : Compiled}

/-- A declaration that compiles at a site compiles into the same at one that it cannot tell from it.
Sites that were alike stay so. -/
theorem compileMember_blind (h : p.Blind s v) (hs : s.Sound (p :: ps)) (hv : v.Sound (p :: qs))
    (hc : p.compileMember s = (.ok c, s')) :
    ∃ v', p.compileMember v = (.ok c, v') ∧ (s.Alike v → s'.Alike v') := by
  cases p with
  | machine d => cases hc
  | func d =>
      have hs' : (d.compile s).2 = s' := congrArg Prod.snd hc
      obtain ⟨f, hf, rfl⟩ := map_eq_ok.mp (congrArg Prod.fst hc)
      obtain ⟨v', hv', halike⟩ := FuncDecl.compile_congr h (Prod.ext hf hs')
      refine ⟨v', ?_, fun _ => halike⟩
      simp only [compileMember, hv', Except.map]
  | type d state =>
      cases state with
      | pending => exact (hs.awaits.settled _ List.mem_cons_self).elim
      | rejected e => cases hc
      | declared type =>
          obtain ⟨-, -, hunseen, -⟩ := hs.awaits.head
          obtain ⟨-, -, hunseen', -⟩ := hv.awaits.head
          have hfound : s.table.foundFields type = v.table.foundFields type := by
            rw [TypeDecl.foundFields_of_unseen hunseen, TypeDecl.foundFields_of_unseen hunseen']
          have hresult := TypeDecl.compileDeclared_below
            (fun name x hx => (h name).symm.trans hx) hfound
          have hs' : (TypeDecl.compileDeclared s type).2 = s' := congrArg Prod.snd hc
          refine ⟨(TypeDecl.compileDeclared v type).2, ?_, fun halike => ?_⟩
          · exact Prod.ext (hresult.map Compiled.type c (congrArg Prod.fst hc)) rfl
          · rw [← hs']
            exact (TypeDecl.alike_compileDeclared s type).symm.trans
              (halike.trans (TypeDecl.alike_compileDeclared v type))

/-- A type leaves all that others see. -/
theorem alike_compileMember (hp : p.IsType) (hsettled : p.SettledIn s.owner s.table.top.id) :
    s.Alike (p.compileMember s).2 := by
  obtain ⟨d, state, rfl⟩ := hp
  cases state with
  | pending => exact hsettled.elim
  | rejected e => exact .refl
  | declared type => exact TypeDecl.alike_compileDeclared s type

theorem lookup_compileMember (hsettled : p.SettledIn s.owner s.table.top.id) (name : String) :
    (p.compileMember s).2.table.lookup name .type = s.table.lookup name .type := by
  cases p with
  | func d => exact d.lookup_compile s name
  | machine d => rfl
  | type d state =>
      have halike := alike_compileMember (s := s) ⟨d, state, rfl⟩ hsettled
      rw [halike.table.lookup]

end Pending

/-! ### Lists of declarations -/

theorem SymbolTable.Awaits.shuffled {t : SymbolTable} {machine : Option String}
    {same passes : Pending → Pending → Prop} {ps qs : List Pending} (h : t.Awaits machine ps)
    (hsymbol : ∀ p q, same p q → p.symbol? = q.symbol?)
    (hsettled : ∀ p q, same p q → p.SettledIn machine t.top.id → q.SettledIn machine t.top.id)
    (hl : Shuffled same passes ps qs) : t.Awaits machine qs where
  settled := hl.forall_mem hsettled h.settled
  bound := fun type hm => h.bound type ((hl.perm_filterMap hsymbol).mem_iff.mpr hm)
  unseen := fun type hm => h.unseen type ((hl.perm_filterMap hsymbol).mem_iff.mpr hm)
  distinct := (hl.perm_filterMap hsymbol).pairwise h.distinct fun hne => hne.symm

theorem Site.Sound.shuffled {s : Site} {same passes : Pending → Pending → Prop}
    {ps qs : List Pending} (h : s.Sound ps) (hsymbol : ∀ p q, same p q → p.symbol? = q.symbol?)
    (hsettled : ∀ p q, same p q →
      p.SettledIn s.owner s.table.top.id → q.SettledIn s.owner s.table.top.id)
    (hl : Shuffled same passes ps qs) : s.Sound qs :=
  ⟨h.table, h.roster, h.awaits.shuffled hsymbol hsettled hl⟩

end Coherence
