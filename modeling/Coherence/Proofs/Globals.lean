import Coherence.Proofs.Lexical
import Coherence.Proofs.Safety
import Mathlib.Data.List.Nodup
/-!
# The outermost frame over a whole run

A list of declarations adds to the outermost frame and takes nothing from it (`SymbolTable.Extends`): first
its types, then its functions in the order in which they compile (`Session.extends_compile`). So after any
lists the frame binds the functions of all outputs, each under its own name, besides types that belong to
no machine; what is bound stays bound, and the machines of all outputs are registered
(`Session.compileAll_globals`).
-/

namespace Coherence

open SymbolTable (Kept)

/-! ### Frames -/

def Symbol.func? : Symbol → Option Func
  | .func f => some f
  | _ => none

namespace Frame

/-- The frame binds each name of a kind once. -/
def Distinct (f : Frame) : Prop := (f.symbols.map Prod.fst).Nodup

/-- The functions that the frame binds, the last declared one first. -/
def functions (f : Frame) : List Func := f.symbols.filterMap fun e => e.2.func?

/-- In a frame that binds each name once lookups and entries are the same. -/
theorem Distinct.find?_eq_some {f : Frame} (h : f.Distinct) {name : String} {kind : SymbolKind}
    {s : Symbol} : f.find? name kind = some s ↔ ((name, kind), s) ∈ f.symbols := by
  unfold Distinct at h
  unfold find?
  constructor
  · intro hs
    obtain ⟨l₁, l₂, hsplit, -⟩ := List.lookup_eq_some_iff.mp hs
    simp [hsplit]
  · intro hmem
    obtain ⟨l₁, l₂, hsplit⟩ := List.append_of_mem hmem
    refine List.lookup_eq_some_iff.mpr ⟨l₁, l₂, hsplit, fun e he => ?_⟩
    rw [hsplit, List.map_append, List.nodup_append] at h
    simpa using (h.2.2 e.1 (List.mem_map_of_mem he) (name, kind) (by simp)).symm

/-- Of symbols kept under their own names and kinds those of functions have the functions' names. -/
theorem mem_functions {f : Frame} (hkeyed : ∀ e ∈ f.symbols, e.1 = e.2.key) {g : Func} :
    g ∈ f.functions ↔ ((g.ident, .func), .func g) ∈ f.symbols := by
  unfold functions
  rw [List.mem_filterMap]
  constructor
  · rintro ⟨⟨key, symbol⟩, he, hg⟩
    cases symbol with
    | func f =>
        cases hg
        have hkey := hkeyed _ he
        dsimp only at hkey
        rwa [hkey] at he
    | type τ => cases hg
    | var v => cases hg
  · intro hmem
    exact ⟨_, hmem, rfl⟩

theorem Distinct.nodup_functions {f : Frame} (h : f.Distinct)
    (hkeyed : ∀ e ∈ f.symbols, e.1 = e.2.key) : (f.functions.map Func.ident).Nodup := by
  have hkeys : f.symbols.Pairwise fun e e' => e.2.key ≠ e'.2.key := by
    refine (List.pairwise_map.mp h).imp_of_mem fun {e e'} he he' hne => ?_
    rwa [← hkeyed e he, ← hkeyed e' he']
  refine List.pairwise_map.mpr (hkeys.filterMap _ fun e e' hne g hg g' hg' heq => hne ?_)
  obtain ⟨key, symbol⟩ := e
  obtain ⟨key', symbol'⟩ := e'
  cases symbol <;> cases hg
  cases symbol' <;> cases hg'
  exact congrArg (·, SymbolKind.func) heq

end Frame

namespace SymbolTable

/-- `u` is `t` with further symbols in the innermost frame, the last declared one first. No name of a kind
gets bound that was bound before. -/
structure Extends (added : List Symbol) (t u : SymbolTable) : Prop where
  outer : u.outer = t.outer
  symbols : u.top.symbols = added.map (fun s => (s.key, s)) ++ t.top.symbols
  distinct : t.top.Distinct → u.top.Distinct

namespace Extends

variable {t u v : SymbolTable} {added added' : List Symbol}

theorem refl : Extends [] t t := ⟨rfl, rfl, id⟩

theorem of_kept {owner : Option String} {touched : TypeSymbol.Key → Prop} (h : Kept owner touched t u) :
    Extends [] t u := by
  refine ⟨h.outer, ?_, ?_⟩ <;> rw [h.top]
  · rfl
  · exact id

theorem bind {s : Symbol} (h : t.top.find? s.name s.kind = none) : Extends [s] t (t.bind s) := by
  refine ⟨rfl, rfl, fun hd => ?_⟩
  show ((s.key :: t.top.symbols.map Prod.fst)).Nodup
  refine List.nodup_cons.mpr ⟨fun hmem => ?_, hd⟩
  obtain ⟨e, he, hkey⟩ := List.mem_map.mp hmem
  have hfree := List.lookup_eq_none_iff.mp h e he
  rw [hkey] at hfree
  exact absurd hfree (by simp [Symbol.key])

theorem trans (h : Extends added t u) (h' : Extends added' u v) : Extends (added' ++ added) t v where
  outer := h'.outer.trans h.outer
  symbols := by rw [h'.symbols, h.symbols, List.map_append, List.append_assoc]
  distinct := h'.distinct ∘ h.distinct

theorem bindTypes {types : List TypeSymbol} (h : t.New types) :
    Extends (types.map .type).reverse t (t.bindTypes types) := by
  induction types generalizing t with
  | nil => exact .refl
  | cons type types ih =>
      have hext := trans (bind (s := .type type) (h.free type List.mem_cons_self)) (ih h.tail)
      rwa [List.map_cons, List.reverse_cons]

/-- What the innermost frame binds it still binds afterwards. -/
theorem find? (h : Extends added t u) (hd : t.top.Distinct) {name : String} {kind : SymbolKind} {s : Symbol}
    (hs : t.top.find? name kind = some s) : u.top.find? name kind = some s := by
  rw [(h.distinct hd).find?_eq_some, h.symbols]
  exact List.mem_append_right _ (hd.find?_eq_some.mp hs)

theorem functions (h : Extends added t u) :
    u.top.functions = added.filterMap Symbol.func? ++ t.top.functions := by
  unfold Frame.functions
  rw [h.symbols, List.filterMap_append, List.filterMap_map]
  rfl

end Extends

end SymbolTable

open SymbolTable (Extends)

/-! ### Lists of declarations -/

theorem Decl.predeclare_of_symbol?_none {machine : Option String} {t : SymbolTable} {d : Decl}
    (h : (d.predeclare t machine).2.symbol? = none) : (d.predeclare t machine).1 = t := by
  cases d with
  | func d => rfl
  | machine d => rfl
  | type d =>
      simp only [predeclare, TypeDecl.predeclare] at h ⊢
      split at h
      · cases h
      · rfl

theorem Decl.extends_predeclareAll (machine : Option String) (t : SymbolTable) (ds : List Decl) :
    Extends ((Pending.symbols (predeclareAll t machine ds).2).map .type).reverse t
      (predeclareAll t machine ds).1 := by
  induction ds generalizing t with
  | nil => exact .refl
  | cons d ds ih =>
      rw [symbols_predeclareAll_cons, List.map_append, List.reverse_append]
      refine Extends.trans ?_ (ih (d.predeclare t machine).1)
      cases hs : (d.predeclare t machine).2.symbol? with
      | none =>
          rw [predeclare_of_symbol?_none hs]
          exact .refl
      | some type =>
          obtain ⟨hfree, hbind⟩ := symbol?_predeclare machine t d hs
          rw [hbind]
          exact .bind hfree

/-- A turn adds the function that it compiles. -/
theorem Pending.extends_compile {s : Site} {p : Pending} {ps : List Pending} (hs : s.Sound (p :: ps))
    (hm : s.machine = none) :
    Extends ((Turn.output ⟨p.decl, s.table, (p.compile s).1⟩).functions.map .func).reverse s.table
      (p.compile s).2.table := by
  cases p with
  | func d =>
      show Extends ((Turn.output ⟨.func d, s.table, (d.compile s).1.map .func⟩).functions.map .func).reverse
        s.table (d.compile s).2.table
      obtain ⟨u, -, hk, ⟨e, hc, -⟩ | ⟨f, -, ⟨-, hfree, hc⟩ | ⟨m, m', hm', -⟩⟩⟩ :=
        FuncDecl.compile_cases s d
      · rw [hc]
        exact .of_kept hk
      · rw [hc]
        exact (Extends.of_kept hk).trans (.bind (s := .func f) hfree)
      · rw [hm] at hm'
        cases hm'
  | machine d =>
      rw [compile_machine hm]
      have hk := Extends.of_kept (d.kept_compile s.table)
      cases hc : (d.compile s.table).1 with
      | ok c => exact hk
      | error e => exact hk
  | type d state =>
      cases state with
      | pending => exact (hs.awaits.settled _ List.mem_cons_self).elim
      | rejected e => exact .refl
      | declared type =>
          have hk := Extends.of_kept (TypeDecl.kept_compileDeclared s type)
          show Extends ((Turn.output ⟨.type d, s.table,
            (TypeDecl.compileDeclared s type).1.map .type⟩).functions.map .func).reverse s.table
            (TypeDecl.compileDeclared s type).2.table
          cases hc : (TypeDecl.compileDeclared s type).1 with
          | ok τ => exact hk
          | error e => exact hk

/-- A type that a member compiles is the one that its declaration registered. -/
theorem Pending.types_compileMember {s : Site} {p : Pending} {ps : List Pending} (hs : s.Sound (p :: ps)) :
    ((Turn.output ⟨p.decl, s.table, (p.compileMember s).1⟩).types.map TypeDef.symbol).Sublist
      p.symbol?.toList := by
  cases p with
  | func d =>
      show ((Turn.output ⟨.func d, s.table, (d.compile s).1.map .func⟩).types.map TypeDef.symbol).Sublist _
      cases (d.compile s).1 <;> exact .slnil
  | machine d => exact .slnil
  | type d state =>
      cases state with
      | pending => exact (hs.awaits.settled _ List.mem_cons_self).elim
      | rejected e => exact .slnil
      | declared type =>
          show ((Turn.output ⟨.type d, s.table,
            (TypeDecl.compileDeclared s type).1.map .type⟩).types.map TypeDef.symbol).Sublist [type]
          obtain ⟨u, -, ⟨e, hc, -⟩ | hc⟩ := TypeDecl.compileDeclared_cases s type <;> rw [hc]
          · exact List.nil_sublist _
          · exact List.Sublist.refl [type]

theorem Pending.types_compile {s : Site} {p : Pending} {ps : List Pending} (hs : s.Sound (p :: ps))
    (hm : s.machine = none) :
    ((Turn.output ⟨p.decl, s.table, (p.compile s).1⟩).types.map TypeDef.symbol).Sublist
      p.symbol?.toList := by
  cases p with
  | func d => exact types_compileMember hs
  | type d state => exact types_compileMember hs
  | machine d =>
      rw [compile_machine hm]
      cases (d.compile s.table).1 <;> exact .slnil

/-- The types that members compile are among those registered for them, in their order. -/
theorem MemberRun.types_turns {r : MemberRun} {ps : List Pending} (h : r.stage.site.Sound ps) :
    ((Turn.outputs (r.turns ps)).types.map TypeDef.symbol).Sublist (Pending.symbols ps) := by
  induction ps generalizing r with
  | nil => exact .slnil
  | cons p ps ih =>
      obtain ⟨r', hturns, -, hsound⟩ := turns_cons h
      rw [hturns, Pending.symbols_cons]
      show (List.map _ (_ ++ _)).Sublist _
      rw [List.map_append]
      refine List.Sublist.append ?_ (ih hsound)
      obtain ⟨e, hattempt⟩ | ⟨claimed, hattempt⟩ := r.stage.attempt_cases p.compileMember p.decl <;>
        rw [attempt, hattempt]
      · exact List.nil_sublist _
      · exact Pending.types_compileMember h

namespace DeclRun

variable {r : DeclRun} {p : Pending} {ps : List Pending}

theorem extends_attempt (h : r.Sound (p :: ps)) :
    Extends ((r.turn p).output.functions.map .func).reverse r.stage.site.table
      (r.attempt p).2.site.table := by
  unfold turn
  obtain ⟨e, hattempt⟩ | ⟨claimed, hattempt⟩ := r.attempt_cases p <;> rw [hattempt]
  · exact .refl
  · exact Pending.extends_compile h.site h.top

theorem extends_steps {r' : DeclRun} (h : r.Sound ps) (hr : ps.foldlM step r = .ok r') :
    Extends ((Turn.outputs (r.turns ps)).functions.map .func).reverse r.stage.site.table
      r'.stage.site.table := by
  induction ps generalizing r with
  | nil =>
      cases hr
      exact .refl
  | cons p ps ih =>
      obtain ⟨r₁, hstep, hr₁, hstage, -⟩ := sound_step h
      have hext := extends_attempt h
      rw [List.foldlM_cons, hstep] at hr
      have hext' := ih hr₁ hr
      have hturns : Turn.outputs (r.turns (p :: ps)) =
          (r.turn p).output.append (Turn.outputs (r₁.turns ps)) := by simp only [turns, hstep]; rfl
      have hfunctions : ∀ o o' : Output, (o.append o').functions = o.functions ++ o'.functions :=
        fun _ _ => rfl
      -- The table lists what was added last first, the output what compiled first.
      rw [hturns, hfunctions, List.map_append, List.reverse_append]
      rw [← hstage] at hext
      exact hext.trans hext'

/-- The types that turns compile are among those registered before, in their order. -/
theorem types_turns (h : r.Sound ps) :
    ((Turn.outputs (r.turns ps)).types.map TypeDef.symbol).Sublist (Pending.symbols ps) := by
  induction ps generalizing r with
  | nil => exact .slnil
  | cons p ps ih =>
      obtain ⟨r₁, hstep, hr₁, -⟩ := sound_step h
      have hturns : Turn.outputs (r.turns (p :: ps)) =
          (r.turn p).output.append (Turn.outputs (r₁.turns ps)) := by simp only [turns, hstep]; rfl
      rw [hturns, Pending.symbols_cons]
      show (List.map _ (_ ++ _)).Sublist _
      rw [List.map_append]
      refine List.Sublist.append ?_ (ih hr₁)
      unfold turn
      obtain ⟨e, hattempt⟩ | ⟨claimed, hattempt⟩ := r.attempt_cases p <;> rw [hattempt]
      · exact List.nil_sublist _
      · exact Pending.types_compile h.site h.top

end DeclRun

namespace Session

variable {s s' : Session} {ds : List Decl} {out : Output}

/-- A list of declarations adds its types and then its functions to the outermost frame, whether they
compile or not; the types that compile are among the types added. -/
theorem extends_compile (hs : s.Sound) (hc : s.compile ds = .ok (s', out)) :
    ∃ types : List TypeSymbol,
      Extends ((out.functions.map .func).reverse ++ (types.map .type).reverse) s.table s'.table ∧
        ∀ τ ∈ out.types, τ.symbol ∈ types := by
  have hout := output_of_compile hs hc
  unfold compile at hc
  obtain ⟨r, hr, heq⟩ := bind_eq_ok.mp hc
  cases heq
  have hext := DeclRun.extends_steps (sound_begin hs ds) hr
  have htypes := (DeclRun.types_turns (sound_begin hs ds)).subset
  rw [hout]
  refine ⟨_, (Decl.extends_predeclareAll none s.table ds).trans hext, fun τ hτ => ?_⟩
  exact htypes (List.mem_map_of_mem hτ)

theorem filterMap_func?_added (functions : List Func) (types : List TypeSymbol) :
    ((functions.map Symbol.func).reverse ++ (types.map Symbol.type).reverse).filterMap Symbol.func? =
      functions.reverse := by
  have htypes : (types.map Symbol.type).reverse.filterMap Symbol.func? = [] := by
    rw [List.filterMap_eq_nil_iff]
    intro e he
    obtain ⟨τ, -, rfl⟩ := List.mem_map.mp (List.mem_reverse.mp he)
    rfl
  rw [List.filterMap_append, htypes, List.append_nil, ← List.map_reverse, List.filterMap_map]
  exact List.filterMap_some

/-! ### Whole runs -/

/-- What the outermost frame and the registry of a session hold after these outputs. -/
structure Globals (config : Config) (outputs : List Output) (s : Session) : Prop where
  distinct : s.table.top.Distinct
  functions : s.table.top.functions = (outputs.flatMap Output.functions).reverse
  builtins : ∀ τ ∈ TypeSymbol.void :: config.types.map fun b => .builtin b.ident b.cIdent,
    s.table.top.find? τ.ident .type = some (.type τ)
  types : ∀ o ∈ outputs, ∀ τ ∈ o.types,
    s.table.top.find? τ.symbol.ident .type = some (.type τ.symbol)
  machines : s.machines.items = outputs.flatMap Output.machines

theorem globals_start {config : Config} (h : Session.start config = .ok s) : s.Globals config [] := by
  obtain ⟨u, hu, heq⟩ := bind_eq_ok.mp h
  cases heq
  obtain ⟨hnew, rfl⟩ := bindBuiltins_eq_ok rfl hu
  have hext := Extends.bindTypes hnew
  have hdistinct := hext.distinct (List.nodup_singleton _)
  refine ⟨hdistinct, ?_, fun τ hτ => ?_, (fun o ho => nomatch ho), rfl⟩
  · rw [hext.functions]
    exact (List.append_nil _).trans (filterMap_func?_added [] _)
  · rw [hdistinct.find?_eq_some, hext.symbols, List.mem_append]
    rcases List.mem_cons.mp hτ with rfl | hτ
    · exact .inr List.mem_cons_self
    · exact .inl (List.mem_map.mpr ⟨.type τ, by simpa using hτ, rfl⟩)

/-- What is bound stays bound while a list of declarations is compiled. -/
theorem Globals.compile {config : Config} {outputs : List Output} (h : s.Globals config outputs)
    (hs : s.Sound) (hc : s.compile ds = .ok (s', out)) : s'.Globals config (outputs ++ [out]) := by
  obtain ⟨types, hext, htypes⟩ := extends_compile hs hc
  have hdistinct := hext.distinct h.distinct
  refine ⟨hdistinct, ?_, fun τ hτ => hext.find? h.distinct (h.builtins τ hτ), ?_, ?_⟩
  · rw [hext.functions, filterMap_func?_added, h.functions, List.flatMap_append,
      List.flatMap_singleton, List.reverse_append]
  · intro o ho τ hτ
    rcases List.mem_append.mp ho with ho | ho
    · exact hext.find? h.distinct (h.types o ho τ hτ)
    · rw [List.mem_singleton.mp ho] at hτ
      rw [hdistinct.find?_eq_some, hext.symbols]
      refine List.mem_append_left _ (List.mem_map.mpr ⟨.type τ.symbol, ?_, rfl⟩)
      simp [htypes τ hτ]
  · obtain ⟨s'', hs'', -, hitems⟩ := compile_eq hs ds
    rw [hs''] at hc
    cases hc
    rw [hitems, h.machines, List.flatMap_append, List.flatMap_singleton]

variable {batches : List (List Decl)} {outputs : List Output}

theorem compileAll_cons {result : Session × List Output}
    (h : s.compileAll (ds :: batches) = .ok result) : ∃ s₁ out outs,
      s.compile ds = .ok (s₁, out) ∧ s₁.compileAll batches = .ok (result.1, outs) ∧
        result.2 = out :: outs := by
  obtain ⟨⟨s₁, out⟩, hc, h⟩ := bind_eq_ok.mp h
  obtain ⟨⟨s₂, outs⟩, hrest, h⟩ := bind_eq_ok.mp h
  cases h
  exact ⟨s₁, out, outs, hc, hrest, rfl⟩

theorem Reached.compileAll {config : Config} (h : Reached config s)
    (hc : s.compileAll batches = .ok (s', outputs)) : Reached config s' := by
  induction batches generalizing s outputs with
  | nil =>
      cases hc
      exact h
  | cons ds batches ih =>
      obtain ⟨s₁, out, outs, hc₁, hrest, -⟩ := compileAll_cons hc
      exact ih (h.compile hc₁) hrest

theorem Globals.compileAll {config : Config} {before : List Output} (h : s.Globals config before)
    (hs : Reached config s) (hc : s.compileAll batches = .ok (s', outputs)) :
    s'.Globals config (before ++ outputs) := by
  induction batches generalizing s before outputs with
  | nil =>
      cases hc
      rwa [List.append_nil]
  | cons ds batches ih =>
      obtain ⟨s₁, out, outs, hc₁, hrest, rfl⟩ := compileAll_cons hc
      have hglobals := ih (h.compile hs.sound hc₁) (hs.compile hc₁) hrest
      rwa [List.append_assoc] at hglobals

/-- Nothing that is bound is bound otherwise later. -/
theorem lookup_compileAll {config : Config} {before : List Output} (h : s.Globals config before)
    (hs : Reached config s) (hc : s.compileAll batches = .ok (s', outputs)) {name : String}
    {kind : SymbolKind} {symbol : Symbol} (hsymbol : s.table.lookup name kind = some symbol) :
    s'.table.lookup name kind = some symbol := by
  induction batches generalizing s before outputs with
  | nil =>
      cases hc
      exact hsymbol
  | cons ds batches ih =>
      obtain ⟨s₁, out, outs, hc₁, hrest, -⟩ := compileAll_cons hc
      refine ih (h.compile hs.sound hc₁) (hs.compile hc₁) hrest ?_
      obtain ⟨types, hext, -⟩ := extends_compile hs.sound hc₁
      rw [SymbolTable.lookup_eq_or, hs.sound.outer, List.findSome?_nil, Option.or_none] at hsymbol
      rw [SymbolTable.lookup_eq_or, hext.find? h.distinct hsymbol, Option.some_or]

/-- After any lists of declarations, whatever failed in them, the outermost frame alone is open. It holds
no variables and nothing that belongs to a machine. It binds the functions of all outputs and no others,
and no two of these have the same name. It binds `void`, the types of the configuration and those of all
outputs. The machines of all outputs are registered in order, under different names. Whatever lists follow,
all that is bound stays bound to the same symbol. -/
theorem compileAll_globals {config : Config} {s₀ : Session} (h₀ : Session.start config = .ok s₀)
    (batches : List (List Decl)) :
    ∃ s outputs, s₀.compileAll batches = .ok (s, outputs) ∧ s.table.outer = [] ∧
      (∀ e ∈ s.table.top.symbols, e.2.FreeStanding) ∧
      (∀ name symbol, s.table.lookup name .func = some symbol ↔
        ∃ f ∈ outputs.flatMap Output.functions, f.ident = name ∧ symbol = .func f) ∧
      ((outputs.flatMap Output.functions).map Func.ident).Nodup ∧
      s.table.lookup TypeSymbol.voidName .type = some (.type .void) ∧
      (∀ b ∈ config.types, s.table.lookup b.ident .type = some (.type (.builtin b.ident b.cIdent))) ∧
      (∀ o ∈ outputs, ∀ τ ∈ o.types,
        s.table.lookup τ.symbol.ident .type = some (.type τ.symbol)) ∧
      s.machines.items = outputs.flatMap Output.machines ∧
      (s.machines.items.map StateMachine.ident).Nodup ∧
      ∀ later, ∃ s' outputs', s.compileAll later = .ok (s', outputs') ∧
        ∀ name kind symbol, s.table.lookup name kind = some symbol →
          s'.table.lookup name kind = some symbol := by
  obtain ⟨s, outputs, hc, hsound, -⟩ := (sound_start h₀).compileAll batches
  have hreached : Reached config s := (Reached.start h₀).compileAll hc
  have hglobals : s.Globals config outputs :=
    (globals_start h₀).compileAll (.start h₀) hc
  have hlookup : ∀ name kind, s.table.lookup name kind = s.table.top.find? name kind := by
    intro name kind
    rw [SymbolTable.lookup_eq_or, hsound.outer, List.findSome?_nil, Option.or_none]
  have hkeyed : ∀ e ∈ s.table.top.symbols, e.1 = e.2.key := hsound.table.keyed _ List.mem_cons_self
  have hnames := hglobals.distinct.nodup_functions hkeyed
  rw [hglobals.functions, List.map_reverse, List.nodup_reverse] at hnames
  refine ⟨s, outputs, hc, hsound.outer, hreached.freeStanding.symbols, fun name symbol => ?_, hnames, ?_,
    fun b hb => ?_, fun o ho τ hτ => ?_, hglobals.machines, hsound.registry.distinct, fun later => ?_⟩
  · rw [hlookup, hglobals.distinct.find?_eq_some]
    constructor
    · intro hmem
      have hkey := hkeyed _ hmem
      cases symbol with
      | func f =>
          obtain rfl : name = f.ident := congrArg Prod.fst hkey
          rw [← Frame.mem_functions hkeyed, hglobals.functions, List.mem_reverse] at hmem
          exact ⟨f, hmem, rfl, rfl⟩
      | type τ => cases congrArg Prod.snd hkey
      | var v => cases congrArg Prod.snd hkey
    · rintro ⟨f, hf, rfl, rfl⟩
      rwa [← Frame.mem_functions hkeyed, hglobals.functions, List.mem_reverse]
  · rw [hlookup]
    exact hglobals.builtins _ List.mem_cons_self
  · rw [hlookup]
    exact hglobals.builtins _ (List.mem_cons_of_mem _ (List.mem_map_of_mem hb))
  · rw [hlookup]
    exact hglobals.types o ho τ hτ
  · obtain ⟨s', outputs', hc', -⟩ := hsound.compileAll later
    exact ⟨s', outputs', hc', fun _ _ _ => lookup_compileAll hglobals hreached hc'⟩

/-- Three lists: `next` fails and is declared again, is declared twice, and is a name in a machine; the
machine is declared twice. -/
def redeclared : List (List Decl) := [
  [.type { ident := "State", body := .enumeration ["I", "M"] },
    .func { returnType := { ident := "Missing" }, ident := "next" },
    .func { returnType := { ident := "State" }, ident := "next" }],
  [.func { returnType := { ident := "int" }, ident := "next" },
    .machine { ident := "L1", members := [
      .type { ident := "Line" }, .func { returnType := { ident := "Line" }, ident := "next" }] }],
  [.machine { ident := "L1" }, .type { ident := "Line" }]]

/-- What is bound after them: the one function that compiled at top level, and the types. -/
theorem compileAll_globals_redeclared : ∃ s₀, Session.start .prelude = .ok s₀ ∧
    ∃ s outputs, s₀.compileAll redeclared = .ok (s, outputs) ∧
      outputs.map (fun o => o.diagnostics.map Diagnostic.code) = [["E0102"], ["E0103"], ["E0103"]] ∧
      (outputs.flatMap Output.functions).map Func.prototype = ["State next();"] ∧
      (∀ name symbol, s.table.lookup name .func = some symbol ↔
        ∃ f ∈ outputs.flatMap Output.functions, f.ident = name ∧ symbol = .func f) ∧
      (∀ o ∈ outputs, ∀ τ ∈ o.types,
        s.table.lookup τ.symbol.ident .type = some (.type τ.symbol)) ∧
      s.machines.items = outputs.flatMap Output.machines := by
  have hrun : ((Session.start .prelude).toOption.bind fun s =>
      (s.compileAll redeclared).toOption.map fun r => decide (
        r.2.map (fun o => o.diagnostics.map Diagnostic.code) = [["E0102"], ["E0103"], ["E0103"]] ∧
          (r.2.flatMap Output.functions).map Func.prototype = ["State next();"])) = some true := by
    decide +kernel
  obtain ⟨s₀, hs₀, hrun⟩ := Option.bind_eq_some_iff.mp hrun
  obtain ⟨r, hc, hrun⟩ := Option.map_eq_some_iff.mp hrun
  rw [toOption_eq_some] at hs₀ hc
  obtain ⟨hcodes, hprototypes⟩ := of_decide_eq_true hrun
  obtain ⟨s, outputs, hc', -, -, hfunctions, -, -, -, htypes, hmachines, -⟩ :=
    compileAll_globals hs₀ redeclared
  rw [hc'] at hc
  cases hc
  exact ⟨s₀, hs₀, s, outputs, hc', hcodes, hprototypes, hfunctions, htypes, hmachines⟩

end Session

end Coherence
