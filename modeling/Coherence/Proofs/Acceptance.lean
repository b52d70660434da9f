import Coherence.Proofs.Resolution
import Coherence.Proofs.UnitNames
/-!
# Which functions are accepted

A function is accepted where it stands exactly if the types of its signature are found, no two parameters
share a name, its body is accepted in a frame that holds just the parameters, and the place it goes to has
no function of its name (`FuncDecl.Acceptable`). Then one entry is added there and all else is as before;
otherwise all is as before (`FuncDecl.compile_accepts`). What "as before" means of a symbol table is
`SymbolTable.Restored`.
-/

namespace Coherence

open SymbolTable (Kept Untouched)

namespace SymbolTable

/-! ### Tables that are as before -/

/-- `u` has the frames of `t` with the same symbols, and all types have the fields that they have in `t`.
The marks of frames that were closed again do not count. -/
structure Restored (t u : SymbolTable) : Prop where
  frames : u.frames = t.frames
  types : ∀ τ, u.define τ = t.define τ

variable {t u : SymbolTable}

theorem Kept.define {owner : Option String} {touched : TypeSymbol.Key → Prop}
    (h : Kept owner touched t u) {τ : TypeSymbol} (hτ : ¬touched τ.key) : u.define τ = t.define τ := by
  unfold SymbolTable.define foundFields
  rw [h.fieldTypes _ hτ]

theorem Kept.restored {owner : Option String} (h : Kept owner Untouched t u) : t.Restored u :=
  ⟨h.frames, fun _ => h.define id⟩

theorem Kept.restored_bind {owner : Option String} (h : Kept owner Untouched t u) (s : Symbol) :
    (t.bind s).Restored (u.bind s) := by
  refine ⟨?_, fun τ => h.define id⟩
  unfold SymbolTable.frames SymbolTable.bind
  rw [h.top, h.outer]

/-! ### Variables that are bound one after another -/

/-- The table with these variables bound one after another in the innermost frame. -/
def bindVars (t : SymbolTable) (vars : List Var) : SymbolTable := vars.foldl (fun t v => t.bind (.var v)) t

theorem find?_bind_var (t : SymbolTable) (v : Var) (name : String) :
    (t.bind (.var v)).top.find? name .var = none ↔
      name ≠ v.ident ∧ t.top.find? name .var = none := by
  rw [find?_bind]
  by_cases h : name = v.ident
  · simp [h, Symbol.key, Symbol.name, Symbol.kind]
  · have hkey : (name, SymbolKind.var) ≠ Symbol.key (.var v) := fun heq => h (congrArg Prod.fst heq)
    simp [h, hkey]

/-- No two of the names are the same, and the innermost frame has no variable of any of them. -/
def Fresh (t : SymbolTable) (names : List String) : Prop :=
  names.Nodup ∧ ∀ n ∈ names, t.top.find? n .var = none

theorem Fresh.nil (t : SymbolTable) : t.Fresh [] := ⟨.nil, by simp⟩

theorem fresh_cons (v : Var) (names : List String) :
    t.Fresh (v.ident :: names) ↔
      t.top.find? v.ident .var = none ∧ (t.bind (.var v)).Fresh names := by
  unfold Fresh
  simp only [List.nodup_cons, List.forall_mem_cons, find?_bind_var, forall_and]
  constructor
  · rintro ⟨⟨hne, hnodup⟩, hfree, hnew⟩
    exact ⟨hfree, hnodup, fun n hn heq => hne (heq ▸ hn), hnew⟩
  · rintro ⟨hfree, hnodup, hne, hnew⟩
    exact ⟨⟨fun hmem => hne _ hmem rfl, hnodup⟩, hfree, hnew⟩

theorem fresh_push (owner : Option String) (names : List String) :
    (t.push owner).Fresh names ↔ names.Nodup :=
  ⟨And.left, fun h => ⟨h, fun _ _ => rfl⟩⟩

end SymbolTable

namespace FuncDecl

/-- The variables that parameters of these types are bound to. -/
def paramVars (formals : List Formal) (types : List TypeSymbol) : List Var :=
  List.zipWith (fun p τ => ⟨p.ident, p.location, τ⟩) formals types

/-- The name of each parameter leads to the type. -/
def Finds (t : SymbolTable) (formals : List Formal) (types : List TypeSymbol) : Prop :=
  List.Forall₂ (fun p τ => t.findType? p.type.ident = some τ) formals types

theorem finds_bind_var {t : SymbolTable} {v : Var} {formals : List Formal} {types : List TypeSymbol} :
    Finds (t.bind (.var v)) formals types ↔ Finds t formals types := by
  unfold Finds
  simp only [SymbolTable.findType?_bind_var]

/-- Parameters are bound exactly if their types are found and their names are different, and new to the
frame. -/
theorem bindFormals_eq_ok {t u : SymbolTable} {formals : List Formal} {types : List TypeSymbol}
    {names : List String} :
    bindFormals t formals = (.ok (types, names), u) ↔
      Finds t formals types ∧ t.Fresh (formals.map Formal.ident) ∧
        names = formals.map Formal.ident ∧ u = t.bindVars (paramVars formals types) := by
  induction formals generalizing t types names u with
  | nil =>
      constructor
      · intro h
        cases h
        exact ⟨.nil, .nil t, rfl, rfl⟩
      · rintro ⟨⟨⟩, -, rfl, rfl⟩
        rfl
  | cons f fs ih =>
      unfold bindFormals
      constructor
      · intro h
        split at h
        · cases h
        · rename_i τ hτ
          split at h
          · cases h
          · rename_i hd
            obtain ⟨hfree, rfl⟩ := SymbolTable.declare_eq_ok.mp hd
            obtain ⟨hresult, htable⟩ := Prod.mk.inj h
            obtain ⟨⟨types', names'⟩, hrest, heq⟩ := map_eq_ok.mp hresult
            cases heq
            have hbind : bindFormals _ fs = (.ok (types', names'), u) := Prod.ext hrest htable
            obtain ⟨hfinds, hfresh, rfl, rfl⟩ := ih.mp hbind
            exact ⟨.cons (SymbolTable.resolveType_ok_iff.mp hτ) (finds_bind_var.mp hfinds),
              (SymbolTable.fresh_cons ⟨f.ident, f.location, τ⟩ _).mpr ⟨hfree, hfresh⟩, rfl, rfl⟩
      · rintro ⟨hfinds, hfresh, rfl, rfl⟩
        cases hfinds with
        | @cons _ τ _ types hτ hfinds =>
            obtain ⟨hfree, hfresh⟩ := (SymbolTable.fresh_cons ⟨f.ident, f.location, τ⟩ _).mp hfresh
            have hd : t.declare (.var ⟨f.ident, f.location, τ⟩) = .ok _ :=
              SymbolTable.declare_eq_ok.mpr ⟨hfree, rfl⟩
            have hrest := ih.mpr ⟨finds_bind_var.mpr hfinds, hfresh, rfl, rfl⟩
            simp only [SymbolTable.resolveType_ok_iff.mpr hτ, hd, hrest]
            rfl

/-! ### Bodies and signatures -/

/-- The frame of a function's body holds just the parameters when the first statement is checked. -/
def bodyStart (t : SymbolTable) (d : FuncDecl) (types : List TypeSymbol) : SymbolTable :=
  t.push.bindVars (paramVars d.formals types)

/-- The body, if there is one, is accepted in a function that returns `ρ` and has parameters of these
types. -/
def BodyAccepted (s : Site) (d : FuncDecl) (ρ : TypeSymbol) (types : List TypeSymbol) : Prop :=
  ∀ statements, d.body? = some statements →
    (Body.generate { machine := s.machine, returnType := ρ } (d.bodyStart s.table types) { depth := 1 }
      statements).error = none

theorem compileBody_succeeds {c : BodyContext} {t : SymbolTable} {body : Option (List Stmt)} :
    (∃ b, (compileBody c t body).1 = .ok b) ↔
      ∀ statements, body = some statements →
        (Body.generate c t { depth := 1 } statements).error = none := by
  cases body with
  | none =>
      constructor
      · rintro - statements ⟨⟩
      · intro _
        exact ⟨_, rfl⟩
  | some statements =>
      simp only [compileBody, Body.text, Option.some.injEq, forall_eq']
      cases (Body.generate c t { depth := 1 } statements).error with
      | none => exact ⟨fun _ => rfl, fun _ => ⟨_, rfl⟩⟩
      | some e =>
          constructor
          · rintro ⟨b, ⟨⟩⟩
          · rintro ⟨⟩

/-- The signature and the body of a function are in order. -/
structure WellFormed (s : Site) (d : FuncDecl) (ρ : TypeSymbol) (types : List TypeSymbol) : Prop where
  returnType : s.table.findType? d.returnType.ident = some ρ
  formals : Finds s.table d.formals types
  distinct : (d.formals.map Formal.ident).Nodup
  body : d.BodyAccepted s ρ types

theorem finds_push {t : SymbolTable} {owner : Option String} {formals : List Formal}
    {types : List TypeSymbol} : Finds (t.push owner) formals types ↔ Finds t formals types := Iff.rfl

theorem compileParts_succeeds {s : Site} {d : FuncDecl} {ρ : TypeSymbol} :
    (∃ parts, (d.compileParts { machine := s.machine, returnType := ρ } s.table.push).1 = .ok parts) ↔
      ∃ types, Finds s.table d.formals types ∧ (d.formals.map Formal.ident).Nodup ∧
        d.BodyAccepted s ρ types := by
  unfold compileParts BodyAccepted
  constructor
  · rintro ⟨parts, h⟩
    split at h
    · cases h
    · rename_i types names u hb
      obtain ⟨hfinds, hfresh, -, rfl⟩ := bindFormals_eq_ok.mp hb
      obtain ⟨b, hbody, -⟩ := map_eq_ok.mp h
      exact ⟨types, finds_push.mp hfinds, hfresh.1, compileBody_succeeds.mp ⟨b, hbody⟩⟩
  · rintro ⟨types, hfinds, hnodup, hbody⟩
    have hb := bindFormals_eq_ok.mpr
      ⟨finds_push.mpr hfinds, (SymbolTable.fresh_push none _).mpr hnodup, rfl, rfl⟩
    obtain ⟨b, hbody⟩ := compileBody_succeeds.mpr hbody
    simp only [hb]
    exact ⟨_, map_eq_ok.mpr ⟨b, hbody, rfl⟩⟩

theorem toFunc_succeeds {s : Site} {d : FuncDecl} :
    (∃ f, (d.toFunc s).1 = .ok f) ↔ ∃ ρ types, d.WellFormed s ρ types := by
  constructor
  · rintro ⟨f, h⟩
    unfold toFunc at h
    split at h
    · cases h
    · rename_i ρ hρ
      obtain ⟨parts, hparts, -⟩ := bind_eq_ok.mp h
      obtain ⟨types, hfinds, hnodup, hbody⟩ := compileParts_succeeds.mp ⟨parts, hparts⟩
      exact ⟨ρ, types, SymbolTable.resolveType_ok_iff.mp hρ, hfinds, hnodup, hbody⟩
  · rintro ⟨ρ, types, hρ, hfinds, hnodup, hbody⟩
    obtain ⟨parts, hparts⟩ := compileParts_succeeds.mpr ⟨types, hfinds, hnodup, hbody⟩
    obtain ⟨params, hparams⟩ := Param.zip?_isSome (aligned_compileParts hparts)
    have hassemble : ∃ f, d.assemble s.owner ρ parts = .ok f := by
      unfold assemble
      simp only [hparams]
      exact ⟨_, rfl⟩
    obtain ⟨f, hf⟩ := hassemble
    unfold toFunc
    simp only [SymbolTable.resolveType_ok_iff.mpr hρ]
    exact ⟨f, bind_eq_ok.mpr ⟨parts, hparts, hf⟩⟩

end FuncDecl

/-! ### Registration -/

/-- The place that functions go to, the machine or else the innermost frame, has none of this name. -/
def Site.Lacks (s : Site) (name : String) : Prop :=
  match s.machine with
  | some m => m.findFunc name = .ok none
  | none => s.table.top.find? name .func = none

theorem Site.addFunc_of_frame {s : Site} {f : Func} (hm : s.machine = none)
    (hfree : s.table.top.find? f.ident .func = none) :
    s.addFunc f = .ok { s with table := s.table.bind (.func f) } := by
  have hd : s.table.declare (.func f) = .ok _ := SymbolTable.declare_eq_ok.mpr ⟨hfree, rfl⟩
  unfold addFunc
  simp only [hm, hd]
  rfl

theorem Site.addFunc_of_machine {s : Site} {f : Func} {m m' : StateMachine} (hm : s.machine = some m)
    (hadd : m.addFunc f = .ok m') : s.addFunc f = .ok { s with machine := some m' } := by
  unfold addFunc
  simp only [hm, hadd]
  rfl

theorem StateMachine.findFunc_eq_none {m : StateMachine} {name : String} :
    m.findFunc name = .ok none ↔ m.roster.contains name = false := by
  unfold findFunc Roster.find Roster.contains
  cases m.roster.positions.lookup name with
  | none => exact ⟨fun _ => rfl, fun _ => rfl⟩
  | some i => cases h : m.roster.items[i]? <;> simp [h, Except.mapError]

theorem Site.addFunc_succeeds {s : Site} {f : Func} :
    (∃ s', s.addFunc f = .ok s') ↔ s.Lacks f.ident := by
  unfold addFunc Lacks
  cases s.machine with
  | none =>
      simp only [map_eq_ok, SymbolTable.declare_eq_ok]
      constructor
      · rintro ⟨s', t, ⟨hfree, -⟩, -⟩
        exact hfree
      · intro hfree
        exact ⟨_, _, ⟨hfree, rfl⟩, rfl⟩
  | some m =>
      simp only [StateMachine.findFunc_eq_none, StateMachine.addFunc, Roster.add?]
      cases m.roster.contains f.ident with
      | true => simp [Except.map]
      | false => simp [Except.map]

namespace FuncDecl

/-- The function is accepted where it stands, with a result of type `ρ` and parameters of these types: its
declaration is well formed, and the place it goes to has no function of its name. -/
structure Acceptable (s : Site) (d : FuncDecl) (ρ : TypeSymbol) (types : List TypeSymbol) : Prop
    extends WellFormed s d ρ types where
  free : s.Lacks d.ident

/-- No definition is written for a function that is marked external or has no statements. -/
theorem isExternal_toFunc {s : Site} {d : FuncDecl} {f : Func} (h : (d.toFunc s).1 = .ok f) :
    f.isExternal = true ↔ d.attributes.external = true ∨ d.body? = none := by
  obtain ⟨-, -, -, hattributes, hbody⟩ := toFunc_eq_ok h
  unfold Func.isExternal
  rw [Bool.or_eq_true, decide_eq_true_iff, hbody, hattributes]
  cases d.body? with
  | none => simp
  | some statements => simp

/-- The parameters of a function have the names and, in the same places, the types of its declaration. -/
theorem wellFormed_of_toFunc {s : Site} {d : FuncDecl} {f : Func} (h : (d.toFunc s).1 = .ok f) :
    d.WellFormed s f.returnType (f.params.map Param.type) ∧
      f.params.map Param.ident = d.formals.map Formal.ident := by
  obtain ⟨ρ, types, hwell⟩ := toFunc_succeeds.mp ⟨f, h⟩
  have hresolved := resolved_toFunc h
  have hρ : f.returnType = ρ :=
    Option.some.inj (hresolved.returnType.symm.trans hwell.returnType)
  have hfinds : Finds s.table d.formals (f.params.map Param.type) :=
    List.forall₂_map_right_iff.mpr (hresolved.params.imp fun _ _ hp => hp.1)
  have htypes : f.params.map Param.type = types := by
    refine List.right_unique_forall₂' ?_ hfinds hwell.formals
    intro p σ τ hσ hτ
    exact Option.some.inj (hσ.symm.trans hτ)
  refine ⟨by rw [hρ, htypes]; exact hwell, ?_⟩
  exact (map_eq_of_forall₂ hresolved.params fun p _ q hpq => hpq.2.symm).symm

/-- What is done in a function's own frame has no effect on which functions there are. -/
theorem lacks_kept {s : Site} {u : SymbolTable} (hu : Kept none Untouched s.table u) {name : String} :
    { s with table := u : Site }.Lacks name ↔ s.Lacks name := by
  unfold Site.Lacks
  rw [hu.top]

theorem compile_succeeds {s : Site} {d : FuncDecl} :
    (∃ f, (d.compile s).1 = .ok f) ↔ ∃ ρ types, d.Acceptable s ρ types := by
  obtain ⟨u, hu, hkept, hcases⟩ := compile_cases s d
  constructor
  · rintro ⟨f, hf⟩
    have htoFunc := toFunc_of_compile hf
    have hwell := (wellFormed_of_toFunc htoFunc).1
    refine ⟨_, _, hwell, ?_⟩
    rw [← (toFunc_eq_ok htoFunc).1, ← lacks_kept hkept]
    rcases hcases with ⟨e, hc, -⟩ | ⟨g, hg, hadded⟩
    · rw [hc] at hf
      cases hf
    · cases htoFunc.symm.trans hg
      refine Site.addFunc_succeeds.mp ?_
      rcases hadded with ⟨hm, hfree, -⟩ | ⟨m, m', hm, hadd, -⟩
      · exact ⟨_, Site.addFunc_of_frame hm hfree⟩
      · exact ⟨_, Site.addFunc_of_machine hm hadd⟩
  · rintro ⟨ρ, types, hwell, hfree⟩
    obtain ⟨f, hf⟩ := toFunc_succeeds.mpr ⟨ρ, types, hwell⟩
    rw [← (toFunc_eq_ok hf).1, ← lacks_kept hkept] at hfree
    obtain ⟨s', hadd⟩ := Site.addFunc_succeeds.mpr hfree
    refine ⟨f, ?_⟩
    unfold compile
    rw [show d.toFunc s = (.ok f, u) from Prod.ext hf hu]
    simp only [hadd]

/-- A function is accepted exactly if it is acceptable where it stands. Then it has the parameters of its
declaration, their types in the same places, and is external if it is marked so or has no statements; it is
the one entry that is new, the last one in the machine or one more in the innermost frame if there is no
machine. If it is refused nothing changes. -/
theorem compile_accepts (s : Site) (d : FuncDecl) :
    ((∃ f, (d.compile s).1 = .ok f) ↔ ∃ ρ types, d.Acceptable s ρ types) ∧
    (∀ f, (d.compile s).1 = .ok f →
      f.ident = d.ident ∧ f.params.map Param.ident = d.formals.map Formal.ident ∧
      d.Acceptable s f.returnType (f.params.map Param.type) ∧
      (f.isExternal = true ↔ d.attributes.external = true ∨ d.body? = none) ∧
      (∀ m, s.machine = some m → s.table.Restored (d.compile s).2.table ∧
        ∃ m', (d.compile s).2.machine = some m' ∧ m.addFunc f = .ok m' ∧
          m.Gains { functions := [f] } m') ∧
      (s.machine = none → (s.table.bind (.func f)).Restored (d.compile s).2.table ∧
        (d.compile s).2.machine = none)) ∧
    ∀ e, (d.compile s).1 = .error e →
      s.table.Restored (d.compile s).2.table ∧ (d.compile s).2.machine = s.machine := by
  obtain ⟨u, -, hkept, hcases⟩ := compile_cases s d
  refine ⟨compile_succeeds, fun f hf => ?_, fun e he => ?_⟩
  · have htoFunc := toFunc_of_compile hf
    obtain ⟨hident, -⟩ := toFunc_eq_ok htoFunc
    obtain ⟨hwell, hnames⟩ := wellFormed_of_toFunc htoFunc
    obtain ⟨ρ, types, hacceptable⟩ := compile_succeeds.mp ⟨f, hf⟩
    refine ⟨hident, hnames, ⟨hwell, hacceptable.free⟩, isExternal_toFunc htoFunc, ?_⟩
    rcases hcases with ⟨e, hc, -⟩ | ⟨g, hg, ⟨hm, -, hc⟩ | ⟨m, m', hm, hadd, hc⟩⟩
    · rw [hc] at hf
      cases hf
    · cases htoFunc.symm.trans hg
      rw [hc, hm]
      exact ⟨fun _ h => (nomatch h), fun _ => ⟨hkept.restored_bind _, rfl⟩⟩
    · cases htoFunc.symm.trans hg
      rw [hc, hm]
      refine ⟨?_, fun h => (nomatch h)⟩
      rintro _ ⟨⟩
      exact ⟨hkept.restored, m', rfl, hadd, .of_addFunc hadd []⟩
  · rcases hcases with ⟨e', hc, -⟩ | ⟨g, -, ⟨-, -, hc⟩ | ⟨m, m', -, -, hc⟩⟩
    · rw [hc]
      exact ⟨hkept.restored, rfl⟩
    · rw [hc] at he
      cases he
    · rw [hc] at he
      cases he

end FuncDecl

end Coherence
