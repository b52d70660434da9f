import Coherence.Proofs.Checked
import Coherence.Proofs.Turns
/-!
# Calls in generated code

A call in a member function is checked when the function's turn comes: it means the function of the
machine that has the name so far, else the one in scope. In generated code the name stands in the
controller class, which declares all functions of the finished machine: it denotes the one of the name,
else the free-standing function (`StateMachine.denotes`).

So a call denotes the function that it was checked against exactly if no member from the caller on, the
caller included, compiles into a function of that name (`Session.calls_denote`). If one does, the call was
checked against a free-standing function and denotes the member (`Session.calls_denote_later`).
-/

namespace Coherence

namespace StateMachine

/-- The function that a name denotes in the controller class of a machine: the member function of that
name, else the one in scope around the class. -/
def denotes (m : StateMachine) (t : SymbolTable) (name : String) : Option Func :=
  match m.functions.find? fun f => f.ident = name with
  | some f => some f
  | none => match t.lookup name .func with
    | some (.func f) => some f
    | _ => none

variable {m : StateMachine} {t u : SymbolTable}

theorem denotes_congr (h : ∀ name, t.lookup name .func = u.lookup name .func) (name : String) :
    m.denotes t name = m.denotes u name := by
  unfold denotes
  rw [h]

theorem callee_eq_ok (hm : m.roster.Valid) {ident : String} {location : Location} {g : Func} :
    callee t (some m) ident location = .ok g ↔ m.denotes t ident = some g := by
  have hfind : m.findFunc ident = .ok (m.functions.find? fun f => f.ident = ident) := by
    rw [findFunc, hm.find_eq]
    rfl
  unfold callee ownFunc denotes
  simp only [hfind]
  cases m.functions.find? fun f => f.ident = ident with
  | some f => simp [bind, Except.bind]
  | none =>
      simp only [bind, Except.bind, SymbolTable.findFunc, SymbolTable.find]
      cases t.lookup ident .func with
      | none => simp
      | some s => cases s <;> simp

/-- Functions that join a machine change what a name denotes exactly if one of them has it, provided
that functions in scope belong to no machine. -/
theorem denotes_gained {m' : StateMachine} {later : List Func} {owner : String}
    (hm' : m'.roster.Valid) (hfunctions : m'.functions = m.functions ++ later)
    (howner : ∀ f ∈ later, f.machine = some owner)
    (hglobal : ∀ name g, t.lookup name .func = some (.func g) → g.machine = none)
    {name : String} {g : Func} (hg : m.denotes t name = some g) :
    m'.denotes t name = some g ↔ ∀ f ∈ later, f.ident ≠ name := by
  have hfind : m'.functions.find? (fun f => f.ident = name) =
      (m.functions.find? fun f => f.ident = name).or (later.find? fun f => f.ident = name) := by
    rw [hfunctions, List.find?_append]
  constructor
  · intro h f hf hname
    -- The machine had no function of this name, so the name denoted one in scope.
    have hnone : m.functions.find? (fun f => f.ident = name) = none := by
      rw [List.find?_eq_none]
      intro e he hkey
      have hdistinct : (m'.functions.map Func.ident).Nodup := hm'.distinct
      rw [hfunctions, List.map_append, List.nodup_append] at hdistinct
      refine hdistinct.2.2 _ (List.mem_map_of_mem he) _ (List.mem_map_of_mem hf) ?_
      rw [of_decide_eq_true hkey, hname]
    have hsome : (later.find? fun f => f.ident = name).isSome :=
      List.find?_isSome.mpr ⟨f, hf, decide_eq_true hname⟩
    obtain ⟨e, he⟩ := Option.isSome_iff_exists.mp hsome
    have hscope : g.machine = none := by
      simp only [denotes, hnone] at hg
      split at hg
      · rename_i hl
        cases hg
        exact hglobal _ _ hl
      · cases hg
    have hmember : g.machine = some owner := by
      simp only [denotes, hfind, hnone, he, Option.none_or] at h
      cases h
      exact howner g (List.mem_of_find?_eq_some he)
    rw [hscope] at hmember
    cases hmember
  · intro hlater
    have hnone : later.find? (fun f => f.ident = name) = none := by
      rw [List.find?_eq_none]
      intro f hf hkey
      exact hlater f hf (of_decide_eq_true hkey)
    rw [← hg, denotes, denotes, hfind, hnone, Option.or_none]

end StateMachine

/-- What is known of a member function's turn: the machine has what came of the turns before, and the
function was compiled there, with the functions in scope that are so around the machine. -/
theorem MachineDecl.turn_func {t : SymbolTable} (ht : t.Sound) {d : MachineDecl Decl}
    {before after : List Turn} {u : Turn} (hu : d.turns t = before ++ u :: after) {fd : FuncDecl}
    {f : Func} (hfd : u.decl = .func fd) (hf : u.result = .ok (.func f)) :
    ∃ m : StateMachine, m.roster.Valid ∧ d.initial.Gains (Turn.outputs before) m ∧
      (fd.toFunc { table := u.table, machine := some m }).1 = .ok f ∧
      ∀ name, u.table.lookup name .func = t.lookup name .func := by
  obtain ⟨r, todo, m, hr, hturns, hm, hgains, hframes⟩ :=
    MemberRun.turns_split (sound_start ht d) rfl hu
  cases todo with
  | nil => cases hturns
  | cons p ps =>
      obtain ⟨r', heq, -⟩ := MemberRun.turns_cons hr
      obtain ⟨rfl, -⟩ := List.cons.inj (heq.symm.trans hturns)
      have hcompile := (Stage.claims_attempt hf).1
      obtain rfl : p = .func fd := by
        cases p <;> cases hfd
        rfl
      obtain ⟨g, hg, hok⟩ := map_eq_ok.mp hcompile
      cases hok
      have hsite : r.stage.site = { table := r.stage.site.table, machine := some m } := by rw [← hm]
      have htoFunc := FuncDecl.toFunc_of_compile hg
      rw [hsite] at htoFunc
      refine ⟨m, hr.roster m hm, hgains, htoFunc, fun name => ?_⟩
      have hinner : r.stage.site.table.lookup name .func = (d.inner t).1.lookup name .func := by
        unfold SymbolTable.lookup
        rw [hframes]
        rfl
      rw [hinner, inner, Decl.lookup_predeclareAll (by simp), SymbolTable.lookup_push]

namespace Session

/-- Of a member function that compiles, each call is checked against the function that its name denotes
in the class of the machine so far. The finished class is that machine's with the functions of this
turn and the later ones, and the name denotes the same in it exactly if none of these has it. -/
theorem calls_denote {config : Config} {s : Session} (hs : Reached config s) {ds : List Decl}
    {w : Turn} (hw : w ∈ s.turns ds) {d : MachineDecl Decl} {c : CompiledMachine}
    (hd : w.decl = .machine d) (hc : w.result = .ok (.machine c)) {before after : List Turn} {u : Turn}
    (hu : d.turns w.table = before ++ u :: after) {fd : FuncDecl} {f : Func}
    (hfd : u.decl = .func fd) (hf : u.result = .ok (.func f)) {statements : List Stmt}
    (hb : fd.body? = some statements) :
    ∃ m : StateMachine, m.functions = (Turn.outputs before).functions ∧
      c.machine.functions = m.functions ++ (Turn.outputs (u :: after)).functions ∧
      f.body = .generated
        (Code.writeAll { depth := 1 } (Stmt.codes u.table.spelling statements)).text ∧
      ∀ k ∈ fd.checked { table := u.table, machine := some m } f.returnType,
        ∀ ident args location, Expr.call ident args location ∈ k.expr.parts →
          ∃ g, callee k.table (some m) ident location = .ok g ∧ g.params.length = args.length ∧
            Expr.checkArgs k.table (some m) args g.params = .ok () ∧
            (c.machine.denotes w.table ident = some g ↔
              ∀ h ∈ (Turn.outputs (u :: after)).functions, h.ident ≠ ident) := by
  obtain ⟨-, htables, hanswers, -⟩ := turns_spec hs.sound ds
  have hglobal := (freeStanding_turns hs.sound hs.freeStanding ds).1 w hw
  have hcompile : (d.compile w.table).1 = .ok c := by
    have hanswer := hanswers w hw _ hc
    rw [hd] at hanswer
    exact hanswer.2
  obtain ⟨c', u', hc', -, hvalid, -⟩ := d.compile_succeeds (htables w hw)
  rw [hc'] at hcompile
  cases hcompile
  have hfinished := (d.gains_compile (htables w hw) (congrArg Prod.fst hc')).1.functions
  rw [hu, Turn.outputs_append] at hfinished
  obtain ⟨m, hm, hgains, htoFunc, hlookup⟩ := MachineDecl.turn_func (htables w hw) hu hfd hf
  have hsofar : m.functions = (Turn.outputs before).functions := hgains.functions
  have hmembers := (d.turns_spec (htables w hw)).2.1
  rw [hu] at hmembers
  have howner : ∀ g ∈ (Turn.outputs (u :: after)).functions, g.machine = some d.ident :=
    (Turn.machine_outputs fun t ht => hmembers t (List.mem_append_right _ ht)).1
  refine ⟨m, hsofar, ?_, (FuncDecl.generated_toFunc htoFunc hb).2.2, ?_⟩
  · rw [hfinished, hsofar]
    rfl
  · intro k hk ident args location hcall
    obtain ⟨τ, hτ⟩ := FuncDecl.inferred_of_toFunc htoFunc k hk
    obtain ⟨g, hg, hlength, hargs⟩ := Expr.callee_of_infer _ _ hτ hcall
    refine ⟨g, hg, hlength, hargs, ?_⟩
    have htable : ∀ name, k.table.lookup name .func = w.table.lookup name .func := fun name =>
      (FuncDecl.lookup_checked hk (by simp) name).trans (hlookup name)
    have hdenotes := (StateMachine.callee_eq_ok hm).mp hg
    rw [StateMachine.denotes_congr htable] at hdenotes
    refine StateMachine.denotes_gained hvalid ?_ howner ?_ hdenotes
    · rw [hfinished, hsofar]
      rfl
    · intro name g' hg'
      exact hglobal.of_lookup hg'

/-- A function `int limit()` that stands free. -/
def freeLimit : FuncDecl where
  returnType := { ident := "int" }
  ident := "limit"

/-- A function `int next()` that returns `limit()`. -/
def nextLimit : FuncDecl where
  returnType := { ident := "int" }
  ident := "next"
  statements := some [.ret (some (.call "limit" [] {})) {}]

/-- A machine whose function `next` stands before a function `bool limit(string name)` of its own. -/
def lateLimit : MachineDecl Decl where
  ident := "L1"
  members := [.func nextLimit, .func {
    returnType := { ident := "bool" }, ident := "limit"
    formals := [{ type := { ident := "string" }, ident := "name" }] }]

/-- The machine compiles after the free function, and its first function in it. The call is checked
against the free function, but the finished machine has one of the name. -/
theorem lateLimit_turns : ∃ s₀ w c u rest f g h, Session.start .prelude = .ok s₀ ∧
    w ∈ s₀.turns [.func freeLimit, .machine lateLimit] ∧ w.decl = .machine lateLimit ∧
    w.result = .ok (.machine c) ∧ c.errors = [] ∧ lateLimit.turns w.table = u :: rest ∧
    u.decl = .func nextLimit ∧ u.result = .ok (.func f) ∧
    f.body = .generated "    return limit();\n" ∧
    callee (nextLimit.bodyTable { table := u.table, machine := some lateLimit.initial })
      (some lateLimit.initial) "limit" {} = .ok g ∧ g.machine = none ∧
    c.machine.denotes w.table "limit" = some h ∧ h.machine = some "L1" := by
  have hrun : ((Session.start .prelude).toOption.bind fun s =>
      (s.turns [.func freeLimit, .machine lateLimit])[1]?.bind fun w =>
      (lateLimit.compile w.table).1.toOption.bind fun c =>
      (lateLimit.turns w.table)[0]?.bind fun u =>
      (nextLimit.toFunc { table := u.table, machine := some lateLimit.initial }).1.toOption.bind fun f =>
      (callee (nextLimit.bodyTable { table := u.table, machine := some lateLimit.initial })
        (some lateLimit.initial) "limit" {}).toOption.bind fun g =>
      (c.machine.denotes w.table "limit").map fun h =>
        decide (w.result.toOption = some (.machine c) ∧ c.errors = [] ∧
          u.result.toOption = some (.func f) ∧ f.body = .generated "    return limit();\n" ∧
          g.machine = none ∧ h.machine = some "L1")) = some true := by decide +kernel
  obtain ⟨s₀, hs₀, hrun⟩ := Option.bind_eq_some_iff.mp hrun
  obtain ⟨w, hw, hrun⟩ := Option.bind_eq_some_iff.mp hrun
  obtain ⟨c, -, hrun⟩ := Option.bind_eq_some_iff.mp hrun
  obtain ⟨u, hu, hrun⟩ := Option.bind_eq_some_iff.mp hrun
  obtain ⟨f, -, hrun⟩ := Option.bind_eq_some_iff.mp hrun
  obtain ⟨g, hg, hrun⟩ := Option.bind_eq_some_iff.mp hrun
  obtain ⟨h, hh, hrun⟩ := Option.map_eq_some_iff.mp hrun
  obtain ⟨hc, herrors, hf, hbody, hfree, hmember⟩ := of_decide_eq_true hrun
  rw [toOption_eq_some] at hs₀ hc hf hg
  have hsound := sound_start hs₀
  have hmem := List.mem_of_getElem? hw
  have hdecl : w.decl = .machine lateLimit := (Option.some.inj (decl_turns hsound hw)).symm
  obtain ⟨rest, hturns, hfirst⟩ := MachineDecl.turns_eq_cons ((turns_spec hsound _).2.1 w hmem) hu
  exact ⟨s₀, w, c, u, rest, f, g, h, hs₀, hmem, hdecl, hc, herrors, hturns,
    (Option.some.inj hfirst).symm, hf, hbody, hg, hfree, hh, hmember⟩

/-- The call in the first function of the machine. -/
theorem calls_denote_lateLimit : ∃ s₀ w c u rest f, Session.start .prelude = .ok s₀ ∧
    w ∈ s₀.turns [.func freeLimit, .machine lateLimit] ∧ w.result = .ok (.machine c) ∧
    lateLimit.turns w.table = u :: rest ∧ u.result = .ok (.func f) ∧
    ∃ m : StateMachine, m.functions = [] ∧
      ∀ k ∈ nextLimit.checked { table := u.table, machine := some m } f.returnType,
        ∀ ident args location, Expr.call ident args location ∈ k.expr.parts →
          ∃ g, callee k.table (some m) ident location = .ok g ∧
            (c.machine.denotes w.table ident = some g ↔
              ∀ h ∈ (Turn.outputs (u :: rest)).functions, h.ident ≠ ident) := by
  obtain ⟨s₀, w, c, u, rest, f, -, -, hs₀, hw, hd, hc, -, hturns, hfd, hf, -⟩ := lateLimit_turns
  have hfirst : lateLimit.turns w.table = [] ++ u :: rest := hturns
  obtain ⟨m, hm, -, -, hcalls⟩ := calls_denote (.start hs₀) hw hd hc hfirst hfd hf rfl
  refine ⟨s₀, w, c, u, rest, f, hs₀, hw, hc, hturns, hf, m, hm, ?_⟩
  intro k hk ident args location hp
  obtain ⟨g, hg, -, -, hiff⟩ := hcalls k hk ident args location hp
  exact ⟨g, hg, hiff⟩

/-- The call `limit()` is checked against the free function and denotes that of the machine, which is
another one. -/
theorem calls_denote_later : ∃ s₀ w c u rest f k g h, Session.start .prelude = .ok s₀ ∧
    w ∈ s₀.turns [.func freeLimit, .machine lateLimit] ∧ w.decl = .machine lateLimit ∧
    w.result = .ok (.machine c) ∧ c.errors = [] ∧
    lateLimit.turns w.table = u :: rest ∧ u.decl = .func nextLimit ∧ u.result = .ok (.func f) ∧
    f.body = .generated "    return limit();\n" ∧
    nextLimit.checked { table := u.table, machine := some lateLimit.initial } f.returnType = [k] ∧
    k.expr = .call "limit" [] {} ∧ callee k.table (some lateLimit.initial) "limit" {} = .ok g ∧
    c.machine.denotes w.table "limit" = some h ∧ g ≠ h := by
  obtain ⟨s₀, w, c, u, rest, f, g, h, hs₀, hw, hd, hc, herrors, hturns, hfd, hf, hbody, hg, hfree, hh,
    hmember⟩ := lateLimit_turns
  refine ⟨s₀, w, c, u, rest, f, _, g, h, hs₀, hw, hd, hc, herrors, hturns, hfd, hf, hbody, rfl, rfl,
    hg, hh, ?_⟩
  rintro rfl
  rw [hfree] at hmember
  cases hmember

end Session

end Coherence
