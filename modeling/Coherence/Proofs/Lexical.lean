import Coherence.Proofs.OrderIndependence
import Coherence.Proofs.Resolution
import Coherence.Proofs.Turns
/-!
# The meaning of type names

Inside a machine the name of a type means a type of the machine, else one declared at top level, else a
builtin type; at top level the first step is left out (`Output.meaning`). It makes no difference where
among the declarations the types stand. In a list that compiles without errors every name is resolved
in this way, in every declaration (`Session.types_resolved`).
-/

namespace Coherence

/-- The type of this name among those listed. -/
def TypeDef.named (types : List TypeDef) (name : String) : Option TypeSymbol :=
  (types.map TypeDef.symbol).find? fun τ => τ.ident = name

def Config.builtin? (config : Config) (name : String) : Option TypeSymbol :=
  if name = TypeSymbol.voidName then some .void
  else (config.types.find? fun b => b.ident = name).map fun b => .builtin b.ident b.cIdent

/-- The type that a name means: in a machine one of the machine's first, then one of those at top level,
then a builtin one. -/
def Output.meaning (o : Output) (config : Config) (m : Option StateMachine) (name : String) :
    Option TypeSymbol :=
  ((m.bind fun m => TypeDef.named m.types name).or (TypeDef.named o.types name)).or
    (config.builtin? name)

namespace Decl

def func? : Decl → Option FuncDecl
  | .func d => some d
  | _ => none

def type? : Decl → Option TypeDecl
  | .type d => some d
  | _ => none

def machine? : Decl → Option (MachineDecl Decl)
  | .machine d => some d
  | _ => none

end Decl

/-- Every function and every type of a list of declarations compiled into one whose types are those that
the names mean, and that spells them so. -/
structure Resolves (meaning : String → Option TypeSymbol) (owner : Option String) (ds : List Decl)
    (functions : List Func) (types : List TypeDef) : Prop where
  functions : List.Forall₂ (fun d f => FuncDecl.Resolved meaning owner d f ∧
    d.Spelled (spelled meaning) f) (ds.filterMap Decl.func?) functions
  types : List.Forall₂ (fun d τ => TypeDecl.Resolved meaning owner d τ ∧
    d.Spelled (spelled meaning) owner τ) (ds.filterMap Decl.type?) types

/-! ### Types that are registered together -/

namespace SymbolTable

variable {t : SymbolTable}

theorem findType?_bind_type (t : SymbolTable) (σ : TypeSymbol) (name : String) :
    (t.bind (.type σ)).findType? name = if σ.ident = name then some σ else t.findType? name := by
  unfold findType?
  rw [lookup_bind]
  by_cases h : σ.ident = name
  · rw [if_pos (by rw [← h]; rfl), if_pos h]
  · rw [if_neg (fun heq => h (congrArg Prod.fst heq).symm), if_neg h]

/-- Types bound together hide all others of their names. -/
theorem findType?_bindTypes {types : List TypeSymbol}
    (hd : types.Pairwise fun σ τ => σ.ident ≠ τ.ident) (name : String) :
    (t.bindTypes types).findType? name =
      (types.find? fun τ => τ.ident = name).or (t.findType? name) := by
  induction types generalizing t with
  | nil => rfl
  | cons σ types ih =>
      obtain ⟨hσ, htypes⟩ := List.pairwise_cons.mp hd
      show ((t.bind (.type σ)).bindTypes types).findType? name = _
      rw [ih htypes, findType?_bind_type, List.find?_cons]
      by_cases h : σ.ident = name
      · have hnone : (types.find? fun τ => τ.ident = name) = none := by
          rw [List.find?_eq_none]
          intro τ hτ hname
          exact hσ τ hτ (h.trans (of_decide_eq_true hname).symm)
        simp only [h, decide_true, if_true, hnone, Option.none_or, Option.some_or]
      · simp only [h, decide_false, if_false]

end SymbolTable

theorem find?_of_mem {types : List TypeSymbol} {σ : TypeSymbol}
    (hd : types.Pairwise fun σ τ => σ.ident ≠ τ.ident) (hσ : σ ∈ types) :
    (types.find? fun τ => τ.ident = σ.ident) = some σ := by
  induction types with
  | nil => cases hσ
  | cons τ types ih =>
      obtain ⟨hτ, htypes⟩ := List.pairwise_cons.mp hd
      rw [List.find?_cons]
      rcases List.mem_cons.mp hσ with rfl | hσ
      · simp
      · simp only [hτ σ hσ, decide_false]
        exact ih htypes hσ

theorem Decl.symbols_eq (machine : Option String) (home : FrameId) (ds : List Decl) :
    ds.filterMap (symbol? machine home) =
      (ds.filterMap type?).map fun d => { d.symbol machine with home } := by
  rw [List.map_filterMap]
  congr 1
  funext d
  cases d <;> rfl

/-- If the types of a list were all new, it is them that its names mean first. -/
theorem Resolves.named {t : SymbolTable} {machine : Option String} {home : FrameId}
    {ds : List Decl} {functions : List Func} {types : List TypeDef}
    (hnew : t.New (ds.filterMap (Decl.symbol? machine home)))
    (h : Resolves (t.bindTypes (ds.filterMap (Decl.symbol? machine home))).findType? machine ds
      functions types) (name : String) :
    (t.bindTypes (ds.filterMap (Decl.symbol? machine home))).findType? name =
      (TypeDef.named types name).or (t.findType? name) := by
  have hsymbols : types.map TypeDef.symbol = ds.filterMap (Decl.symbol? machine home) := by
    rw [Decl.symbols_eq]
    refine (map_eq_of_forall₂ h.types ?_).symm
    rintro d hd τ ⟨hresolved, -⟩
    have hmem : { d.symbol machine with home } ∈ ds.filterMap (Decl.symbol? machine home) := by
      rw [Decl.symbols_eq]
      exact List.mem_map_of_mem hd
    have hself := hresolved.self
    rw [SymbolTable.findType?_bindTypes hnew.distinct] at hself
    have hfound := find?_of_mem hnew.distinct hmem
    rw [show ({ d.symbol machine with home } : TypeSymbol).ident = d.ident from rfl] at hfound
    rw [hfound] at hself
    exact Option.some.inj hself
  rw [SymbolTable.findType?_bindTypes hnew.distinct, TypeDef.named, hsymbols]

/-! ### Turns -/

namespace Turn

/-- What the declaration compiled into has the types that its names lead to in the table that it
found. -/
def Resolved (owner : Option String) (t : Turn) : Prop :=
  ∀ c, t.result = .ok c →
    match t.decl, c with
    | .func d, .func f => d.Resolved t.table.findType? owner f
    | .type d, .type τ => d.Resolved t.table.findType? owner τ
    | .machine d, .machine c => (d.compile t.table).1 = .ok c
    | _, _ => False

/-- A part of the output comes of the declarations in question, one after another. -/
theorem forall₂_outputs {δ γ : Type} {R : δ → γ → Prop} {pick : Decl → Option δ}
    (get : Output → List γ) (hempty : get {} = [])
    (happend : ∀ o o', get (o.append o') = get o ++ get o') {ts : List Turn}
    (h : ∀ t ∈ ts, List.Forall₂ R (pick t.decl).toList (get t.output)) :
    List.Forall₂ R ((ts.map decl).filterMap pick) (get (outputs ts)) := by
  induction ts with
  | nil =>
      rw [show outputs [] = {} from rfl, hempty]
      exact .nil
  | cons t ts ih =>
      obtain ⟨hhead, htail⟩ := List.forall_mem_cons.mp h
      have hcons : ((t :: ts).map decl).filterMap pick =
          (pick t.decl).toList ++ (ts.map decl).filterMap pick := by
        rw [List.map_cons, List.filterMap_cons]
        cases pick t.decl <;> rfl
      rw [hcons, show outputs (t :: ts) = t.output.append (outputs ts) from rfl, happend]
      exact List.rel_append hhead (ih htail)

variable {t : Turn} {owner : Option String}

/-- What a declaration that compiled adds to the output. -/
theorem Resolved.output (h : t.Resolved owner) (hc : t.Compiles) :
    List.Forall₂ (FuncDecl.Resolved t.table.findType? owner) t.decl.func?.toList t.output.functions ∧
      List.Forall₂ (TypeDecl.Resolved t.table.findType? owner) t.decl.type?.toList t.output.types ∧
      List.Forall₂ (fun d m => ∃ c, (MachineDecl.compile t.table d).1 = .ok c ∧ c.machine = m ∧
        t.decl = .machine d ∧ t.result = .ok (.machine c)) t.decl.machine?.toList t.output.machines := by
  obtain ⟨c, hc⟩ := hc
  have hresolved := h c hc
  unfold Turn.output
  rw [hc]
  cases hd : t.decl with
  | func d =>
      rw [hd] at hresolved
      cases c with
      | func f => exact ⟨.cons hresolved .nil, .nil, .nil⟩
      | type _ => exact hresolved.elim
      | machine _ => exact hresolved.elim
  | type d =>
      rw [hd] at hresolved
      cases c with
      | type τ => exact ⟨.nil, .cons hresolved .nil, .nil⟩
      | func _ => exact hresolved.elim
      | machine _ => exact hresolved.elim
  | machine d =>
      rw [hd] at hresolved
      cases c with
      | machine m => exact ⟨.nil, .nil, .cons ⟨m, hresolved, rfl, rfl, rfl⟩ .nil⟩
      | func _ => exact hresolved.elim
      | type _ => exact hresolved.elim

/-- If all declarations compiled, in tables where names lead to the same types, all their functions and
types have these. -/
theorem resolves_outputs {meaning : String → Option TypeSymbol} {ts : List Turn}
    (hcompiles : ∀ t ∈ ts, t.Compiles)
    (hresolved : ∀ t ∈ ts, t.Resolved owner ∧ t.table.findType? = meaning) :
    Resolves meaning owner (ts.map decl) (outputs ts).functions (outputs ts).types := by
  constructor
  · refine forall₂_outputs Output.functions rfl (fun _ _ => rfl) fun t ht => ?_
    obtain ⟨hres, hmeaning⟩ := hresolved t ht
    rw [← hmeaning]
    exact (hres.output (hcompiles t ht)).1.imp fun d f h => ⟨h, h.spelled⟩
  · refine forall₂_outputs Output.types rfl (fun _ _ => rfl) fun t ht => ?_
    obtain ⟨hres, hmeaning⟩ := hresolved t ht
    rw [← hmeaning]
    exact (hres.output (hcompiles t ht)).2.1.imp fun d τ h => ⟨h, h.spelled⟩

end Turn

namespace Pending

variable {s : Site} {p : Pending} {ps : List Pending}

theorem resolved_compileMember (h : s.Sound (p :: ps)) :
    Turn.Resolved s.owner ⟨p.decl, s.table, (p.compileMember s).1⟩ := by
  intro c hc
  cases p with
  | machine d => cases hc
  | func d =>
      obtain ⟨f, hf, rfl⟩ := map_eq_ok.mp hc
      exact FuncDecl.resolved_toFunc (FuncDecl.toFunc_of_compile hf)
  | type d state =>
      cases state with
      | pending => exact (h.awaits.settled _ List.mem_cons_self).elim
      | rejected e => cases hc
      | declared type =>
          obtain ⟨τ, hτ, rfl⟩ := map_eq_ok.mp hc
          exact TypeDecl.resolved_compileDeclared h.awaits hτ

theorem resolved_compile (h : s.Sound (p :: ps)) (hm : s.machine = none) :
    Turn.Resolved none ⟨p.decl, s.table, (p.compile s).1⟩ := by
  by_cases hp : ∀ d, p ≠ .machine d
  · rw [compile_eq_compileMember hp, ← Site.owner_eq_none.mpr hm]
    exact resolved_compileMember h
  · obtain ⟨d, rfl⟩ : ∃ d, p = .machine d := by simpa using hp
    rw [compile_machine hm]
    intro c hc
    obtain ⟨m, hmachine, rfl⟩ := map_eq_ok.mp hc
    exact hmachine

end Pending

/-! ### Machines -/

namespace MachineDecl

variable {t : SymbolTable}

theorem resolved_turns (ht : t.Sound) (d : MachineDecl Decl) :
    ∀ u ∈ d.turns t, u.Resolved (some d.ident) ∧ u.table.findType? = (d.inner t).1.findType? := by
  refine MemberRun.forall_turns
    (P := fun s => s.owner = some d.ident ∧ s.table.findType? = (d.inner t).1.findType?)
    (fun s p ps hs hP => ?_) (fun s d' e hP => ⟨fun c hc => (nomatch hc), hP.2⟩) (sound_start ht d)
    ⟨rfl, rfl⟩
  obtain ⟨howner, htypes⟩ := hP
  have hsettled := hs.awaits.settled p List.mem_cons_self
  refine ⟨⟨(Pending.outer_compileMember p hsettled).2.trans howner, ?_⟩, ?_, htypes⟩
  · rw [← htypes]
    funext name
    exact SymbolTable.findType?_congr (Pending.lookup_compileMember hsettled name)
  · rw [← howner]
    exact Pending.resolved_compileMember hs

/-- In a machine without failed members names mean types of the machine first, then those that they mean
around it. -/
theorem resolves_compile (ht : t.Sound) {d : MachineDecl Decl} {c : CompiledMachine}
    (hc : (d.compile t).1 = .ok c) (herrors : c.errors = []) :
    Resolves (d.inner t).1.findType? (some d.ident) d.members c.machine.functions c.machine.types ∧
      ∀ name, (d.inner t).1.findType? name =
        (TypeDef.named c.machine.types name).or (t.findType? name) := by
  obtain ⟨hgains, hfailures⟩ := d.gains_compile ht hc
  rw [herrors] at hfailures
  have hresolves :=
    Turn.resolves_outputs (Turn.compiles_of_failures hfailures.symm) (d.resolved_turns ht)
  have hfunctions : c.machine.functions = (Turn.outputs (d.turns t)).functions := hgains.functions
  have htypes : c.machine.types = (Turn.outputs (d.turns t)).types := hgains.types
  rw [(d.turns_spec ht).1, ← hfunctions, ← htypes] at hresolves
  have hnew : (t.push d.ident).New
      (d.members.filterMap (Decl.symbol? (some d.ident) (t.push d.ident).top.id)) := by
    refine Decl.new_of_predeclareAll _ fun p hp => ?_
    obtain ⟨_, _, _, _, -, hcompile, -⟩ := (clean_run ht hc herrors).forall_mem p hp
    exact not_rejected hcompile
  refine ⟨hresolves, fun name => ?_⟩
  unfold inner at hresolves ⊢
  rw [Decl.predeclareAll_of_new _ hnew] at hresolves ⊢
  exact hresolves.named hnew name

end MachineDecl

/-! ### Sessions -/

namespace Session

variable {s : Session} {ds : List Decl}

/-- All declarations of a list find the same types, whatever was compiled before them. -/
theorem resolved_turns (hs : s.Sound) (ds : List Decl) :
    ∀ u ∈ s.turns ds, u.Resolved none ∧
      u.table.findType? = (Decl.predeclareAll s.table none ds).1.findType? := by
  refine (DeclRun.forall_turns
    (P := fun v => v.table.findType? = (Decl.predeclareAll s.table none ds).1.findType?)
    (fun v p ps hv hm hP => ⟨?_, Pending.resolved_compile hv hm, hP⟩)
    (fun v d e hP => ⟨fun c hc => (nomatch hc), hP⟩) (sound_begin hs ds) rfl).1
  rw [← hP]
  funext name
  exact SymbolTable.findType?_congr (Pending.lookup_compile hm hv name)

theorem bindBuiltins_eq_ok {t u : SymbolTable} {bs : List BuiltinType} (hid : t.top.id = {})
    (h : bindBuiltins t bs = .ok u) :
    t.New (bs.map fun b => .builtin b.ident b.cIdent) ∧
      u = t.bindTypes (bs.map fun b => .builtin b.ident b.cIdent) := by
  induction bs generalizing t with
  | nil =>
      cases h
      exact ⟨⟨by simp, .nil⟩, rfl⟩
  | cons b bs ih =>
      obtain ⟨v, hv, h⟩ := bind_eq_ok.mp h
      obtain ⟨hfree, rfl⟩ := SymbolTable.declare_eq_ok.mp hv
      have hadopt : t.adopt (.builtin b.ident b.cIdent) = .builtin b.ident b.cIdent := by
        rw [SymbolTable.adopt, hid]
        rfl
      rw [hadopt] at hfree h
      obtain ⟨hnew, hu⟩ := ih (t := t.bind _) hid h
      exact ⟨hnew.cons hfree, hu⟩

/-- At the start the builtin types are all that names mean. -/
theorem findType?_start {config : Config} (h : Session.start config = .ok s) (name : String) :
    s.table.findType? name = config.builtin? name := by
  obtain ⟨u, hu, heq⟩ := bind_eq_ok.mp h
  cases heq
  obtain ⟨hnew, rfl⟩ := bindBuiltins_eq_ok rfl hu
  show (SymbolTable.bindTypes .initial _).findType? name = _
  rw [SymbolTable.findType?_bindTypes hnew.distinct]
  unfold Config.builtin?
  by_cases hvoid : name = TypeSymbol.voidName
  · -- A builtin type of this name would have been refused.
    have hnone : ((config.types.map fun b => TypeSymbol.builtin b.ident b.cIdent).find?
        fun τ => τ.ident = name) = none := by
      rw [List.find?_eq_none]
      intro τ hτ hname
      have hfree := hnew.free τ hτ
      rw [of_decide_eq_true hname, hvoid] at hfree
      cases hfree
    rw [hnone, if_pos hvoid, hvoid]
    rfl
  · rw [if_neg hvoid, List.find?_map]
    have hinitial : SymbolTable.initial.findType? name = none := by
      have hne : ((name, SymbolKind.type) == (TypeSymbol.voidName, SymbolKind.type)) = false := by
        simp [hvoid]
      simp [SymbolTable.findType?, SymbolTable.lookup, SymbolTable.frames, SymbolTable.initial,
        Frame.find?, List.lookup_cons, hne]
    rw [hinitial, Option.or_none]
    rfl

section resolved

variable {config : Config} {s₀ : Session} {out : Output} (h₀ : Session.start config = .ok s₀)
  (hc : s₀.compile ds = .ok (s, out)) (herrors : out.hasErrors = false)

include h₀ hc herrors

theorem turn_of_compile {w : Turn} (hw : w ∈ s₀.turns ds) :
    w.Compiles ∧ w.output.hasErrors = false := by
  rw [output_of_compile (sound_start h₀) hc] at herrors
  have hclean := Turn.hasErrors_outputs.mp herrors w hw
  exact ⟨Turn.compiles_of_hasErrors hclean, hclean⟩

/-- At top level the types of the list come first, and no others but the builtin ones are there. -/
theorem findType?_meaning :
    Resolves (out.meaning config none) none ds out.functions out.types ∧
      (Decl.predeclareAll s₀.table none ds).1.findType? = out.meaning config none := by
  have hs := sound_start h₀
  obtain ⟨r, hruns, -⟩ := runs_of_compile hs hc herrors
  have hnew := new_of_runs hruns
  have hresolves := Turn.resolves_outputs (fun w hw => (turn_of_compile h₀ hc herrors hw).1)
    (resolved_turns hs ds)
  rw [(turns_spec hs ds).1, ← output_of_compile hs hc] at hresolves
  have htop : (Decl.predeclareAll s₀.table none ds).1.findType? = out.meaning config none := by
    funext name
    rw [Decl.predeclareAll_of_new none hnew] at hresolves ⊢
    rw [hresolves.named hnew, findType?_start h₀]
    rfl
  rw [htop] at hresolves
  exact ⟨hresolves, htop⟩

/-- Inside a machine the types of the machine come before those at top level. -/
theorem findType?_inner {w : Turn} (hw : w ∈ s₀.turns ds) {d : MachineDecl Decl}
    {c : CompiledMachine} (hd : (d.compile w.table).1 = .ok c) (hclean : c.errors = []) :
    (d.inner w.table).1.findType? = out.meaning config (some c.machine) := by
  have hs := sound_start h₀
  have hsound := (turns_spec hs ds).2.1 w hw
  have htop := (findType?_meaning h₀ hc herrors).2
  funext name
  rw [(MachineDecl.resolves_compile hsound hd hclean).2, (resolved_turns hs ds w hw).2, htop]
  unfold Output.meaning
  rw [Option.bind_none, Option.none_or, Option.bind_some, Option.or_assoc]

/-- In a list that compiles without errors each name of a type in a signature or of a field is resolved
to the type that it means, wherever that is declared, and spelled so. At top level no type of a machine
is meant. Names mean the same at all turns of the list, and at those of a machine's members. -/
theorem types_resolved :
    Resolves (out.meaning config none) none ds out.functions out.types ∧
      (∀ name τ, out.meaning config none name = some τ → τ.machine = none) ∧
      List.Forall₂ (fun (d : MachineDecl Decl) (m : StateMachine) => m.ident = d.ident ∧
        Resolves (out.meaning config (some m)) (some d.ident) d.members m.functions m.types)
        (ds.filterMap Decl.machine?) out.machines ∧
      ∀ w ∈ s₀.turns ds, w.table.findType? = out.meaning config none ∧
        ∀ d c, w.decl = .machine d → w.result = .ok (.machine c) →
          ∀ u ∈ d.turns w.table, u.table.findType? = out.meaning config (some c.machine) := by
  have hs := sound_start h₀
  obtain ⟨hdecls, htables, -⟩ := turns_spec hs ds
  have hresolved := resolved_turns hs ds
  obtain ⟨hresolves, htop⟩ := findType?_meaning h₀ hc herrors
  refine ⟨hresolves, fun name τ hτ => ?_, ?_, fun w hw => ⟨(hresolved w hw).2.trans htop, ?_⟩⟩
  · rw [← htop] at hτ
    have hlookup := SymbolTable.findType?_eq_some.mp hτ
    exact (Decl.freeStanding_predeclareAll (Reached.start h₀).freeStanding ds).of_lookup hlookup
  · rw [output_of_compile hs hc]
    conv in ds.filterMap _ => rw [← hdecls]
    refine Turn.forall₂_outputs Output.machines rfl (fun _ _ => rfl) fun w hw => ?_
    rw [← output_of_compile hs hc]
    obtain ⟨hcompiles, hclean⟩ := turn_of_compile h₀ hc herrors hw
    refine ((hresolved w hw).1.output hcompiles).2.2.imp ?_
    rintro d _ ⟨c, hd, rfl, -, hresult⟩
    have hflawless := Turn.errors_of_hasErrors hresult hclean
    obtain ⟨c', u, hd', hident, -⟩ := d.compile_succeeds (htables w hw)
    rw [hd'] at hd
    cases hd
    refine ⟨hident, ?_⟩
    rw [← findType?_inner h₀ hc herrors hw (congrArg Prod.fst hd') hflawless]
    exact (MachineDecl.resolves_compile (htables w hw) (congrArg Prod.fst hd') hflawless).1
  · intro d c hdecl hresult u hu
    have hd : (d.compile w.table).1 = .ok c := by
      have hres := (hresolved w hw).1 _ hresult
      rw [hdecl] at hres
      exact hres
    have hclean := (turn_of_compile h₀ hc herrors hw).2
    rw [← findType?_inner h₀ hc herrors hw hd (Turn.errors_of_hasErrors hresult hclean)]
    exact (d.resolved_turns (htables w hw) u hu).2

end resolved

/-- Two machines that use `Line`, before it is declared at top level; the first one has a `Line` of its
own, after its use. -/
def twoLines : List Decl := [
  .machine { ident := "L1", members := [
    .func { returnType := { ident := "Line" }, ident := "head"
            formals := [{ type := { ident := "State" }, ident := "state" }] },
    .type { ident := "Line", body := .record [{ type := { ident := "State" }, ident := "state" }] }] },
  .machine { ident := "L2", members := [
    .func { returnType := { ident := "Line" }, ident := "head" },
    .type { ident := "Set", body := .record [{ type := { ident := "Line" }, ident := "way" }] }] },
  .type { ident := "State", body := .enumeration ["I", "M"] },
  .type { ident := "Line", body := .record [{ type := { ident := "int" }, ident := "tag" }] }]

/-- The names in both machines, with the prototypes that they lead to. -/
theorem types_resolved_twoLines : ∃ s₀ s out, Session.start .prelude = .ok s₀ ∧
    s₀.compile twoLines = .ok (s, out) ∧ out.hasErrors = false ∧
    out.machines.map (fun m => m.functions.map Func.prototype) =
      [["L1_Line head(State state);"], ["Line head();"]] ∧
    Resolves (out.meaning .prelude none) none twoLines out.functions out.types ∧
    List.Forall₂ (fun (d : MachineDecl Decl) (m : StateMachine) => m.ident = d.ident ∧
      Resolves (out.meaning .prelude (some m)) (some d.ident) d.members m.functions m.types)
      (twoLines.filterMap Decl.machine?) out.machines := by
  have hrun : ((Session.start .prelude).toOption.bind fun s =>
      (s.compile twoLines).toOption.map fun r => decide (r.2.hasErrors = false ∧
        r.2.machines.map (fun m => m.functions.map Func.prototype) =
          [["L1_Line head(State state);"], ["Line head();"]])) = some true := by decide +kernel
  obtain ⟨s₀, hs₀, hrun⟩ := Option.bind_eq_some_iff.mp hrun
  obtain ⟨⟨s, out⟩, hc, hrun⟩ := Option.map_eq_some_iff.mp hrun
  obtain ⟨herrors, hprototypes⟩ := of_decide_eq_true hrun
  rw [toOption_eq_some] at hs₀ hc
  obtain ⟨htop, -, hmachines, -⟩ := types_resolved hs₀ hc herrors
  exact ⟨s₀, s, out, hs₀, hc, herrors, hprototypes, htop, hmachines⟩

end Session

end Coherence
