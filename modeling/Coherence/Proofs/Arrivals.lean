import Coherence.Proofs.Turns
import Mathlib.Data.List.Induction
import Mathlib.Data.List.Nodup
/-!
# Arrivals

Functions and types arrive at a state machine one after another, and machines at the registry. A function
or machine whose name is taken is turned away with an error. That gives nothing new, so what arrives next
finds what was there before (`Arrivals.after`).

At every moment the items of the roster are those that were accepted, in their order. No two have the same
name, each name leads to the position of its item, and only a name that is there already is turned away
(`Roster.Faithful`). This holds of machines and of the registry (`Arrivals.indexes_faithful`). The compiler,
too, goes on with what an arrival leaves: the registry of a session, and each machine in it, is what
arrivals make (`Session.Reached.arrivals`).
-/

namespace Coherence

/-! ### One after another -/

namespace Arrivals

variable {σ α ε : Type} (take : σ → α → Except ε σ)

/-- What is there when all of these have arrived. -/
def after (s : σ) : List α → σ
  | [] => s
  | a :: rest =>
    match take s a with
    | .ok t => after t rest
    | .error _ => after s rest

/-- Those of the arrivals that are not turned away, in their order. -/
def accepted (s : σ) : List α → List α
  | [] => []
  | a :: rest =>
    match take s a with
    | .ok t => a :: accepted t rest
    | .error _ => accepted s rest

variable {take} {s t : σ} {a : α} {e : ε}

theorem after_append (s : σ) (past rest : List α) :
    after take s (past ++ rest) = after take (after take s past) rest := by
  induction past generalizing s with
  | nil => rfl
  | cons a past ih =>
      rw [List.cons_append, after, after]
      cases take s a with
      | ok t => exact ih t
      | error e => exact ih s

theorem accepted_append (s : σ) (past rest : List α) :
    accepted take s (past ++ rest) =
      accepted take s past ++ accepted take (after take s past) rest := by
  induction past generalizing s with
  | nil => rfl
  | cons a past ih =>
      rw [List.cons_append, accepted, accepted, after]
      cases take s a with
      | ok t => exact congrArg (a :: ·) (ih t)
      | error e => exact ih s

theorem after_of_ok (h : take s a = .ok t) : after take s [a] = t := by
  rw [after, h]
  rfl

theorem after_of_error (h : take s a = .error e) : after take s [a] = s := by
  rw [after, h]
  rfl

/-- Those that are turned away leave no trace: without them the same is there in the end. -/
theorem after_accepted (s : σ) (past : List α) :
    after take s (accepted take s past) = after take s past := by
  induction past generalizing s with
  | nil => rfl
  | cons a past ih =>
      rw [accepted, after]
      cases ha : take s a with
      | ok t =>
          dsimp only
          rw [after, ha]
          exact ih t
      | error e => exact ih s

/-- What holds at first and is kept by every arrival holds at every moment. It may speak of all arrivals up
to that moment and of those accepted. -/
theorem invariant {P : List α → List α → σ → Prop} (start : P [] [] s)
    (accept : ∀ {past acc t a t'}, P past acc t → take t a = .ok t' → P (past ++ [a]) (acc ++ [a]) t')
    (refuse : ∀ {past acc t a e}, P past acc t → take t a = .error e → P (past ++ [a]) acc t)
    (past : List α) : P past (accepted take s past) (after take s past) := by
  induction past using List.reverseRecOn with
  | nil => exact start
  | append_singleton past a ih =>
      rw [accepted_append, after_append, accepted]
      cases ha : take (after take s past) a with
      | ok t =>
          rw [after_of_ok ha]
          exact accept ih ha
      | error e =>
          rw [after_of_error ha, accepted, List.append_nil]
          exact refuse ih ha

end Arrivals

/-! ### Rosters -/

namespace Roster

variable {α β ε : Type} {key : α → String} {r r' : Roster α key} {item : α} {accepted : List α}

/-- The roster is made of the items accepted so far. -/
structure MadeOf (r : Roster α key) (accepted : List α) : Prop where
  valid : r.Valid
  items : r.items = accepted
  /-- The positions are those of the items under their names, the last one first. -/
  positions : r.positions = (r.items.mapIdx fun i item => (key item, i)).reverse

namespace MadeOf

theorem empty : (empty : Roster α key).MadeOf [] := ⟨valid_empty, rfl, rfl⟩

theorem add? (h : r.MadeOf accepted) (hadd : r.add? item = some r') :
    r'.MadeOf (accepted ++ [item]) := by
  have hvalid := h.valid.add? hadd
  obtain ⟨-, rfl⟩ := add?_eq_some.mp hadd
  refine ⟨hvalid, by rw [h.items], ?_⟩
  rw [List.mapIdx_concat, List.reverse_append, ← h.positions]
  rfl

theorem mem_positions (h : r.MadeOf accepted) {name : String} {i : Nat} :
    (name, i) ∈ r.positions ↔ ∃ h : i < r.items.length, key r.items[i] = name := by
  rw [h.positions, List.mem_reverse, List.mem_mapIdx]
  constructor
  · rintro ⟨j, hj, heq⟩
    obtain ⟨rfl, rfl⟩ := Prod.mk.inj heq
    exact ⟨hj, rfl⟩
  · rintro ⟨hi, rfl⟩
    exact ⟨i, hi, rfl⟩

theorem map_fst_positions (h : r.MadeOf accepted) :
    r.positions.map Prod.fst = (r.items.map key).reverse := by
  rw [h.positions, List.map_reverse]
  refine congrArg List.reverse (List.ext_getElem (by simp) fun i _ _ => ?_)
  simp only [List.getElem_map, List.getElem_mapIdx]

theorem get?_eq_some (h : r.MadeOf accepted) {name : String} :
    r.get? name = some item ↔ item ∈ accepted ∧ key item = name := by
  have hget : r.get? name = r.items.find? fun other => key other = name := by
    rw [get?, h.valid.find_eq]
  rw [hget, ← h.items]
  constructor
  · intro hfound
    have hkey := List.find?_some hfound
    exact ⟨List.mem_of_find?_eq_some hfound, by simpa using hkey⟩
  · rintro ⟨hitem, rfl⟩
    -- Something is found, since the item is there, and no other one has its name.
    cases hfound : r.items.find? fun other => key other = key item with
    | none => exact absurd (decide_eq_true rfl) (List.find?_eq_none.mp hfound item hitem)
    | some other =>
        have hkey : key other = key item := by simpa using List.find?_some hfound
        have hother := List.mem_of_find?_eq_some hfound
        rw [List.inj_on_of_nodup_map h.valid.distinct hother hitem hkey]

theorem find_eq_get? (h : r.MadeOf accepted) (name : String) : r.find name = .ok (r.get? name) := by
  obtain ⟨found, hfound⟩ := h.valid.find name
  rw [get?, hfound]

end MadeOf

/-- A roster shows the items accepted so far, and so do the functions on it: `get?` and `find` look an item
up by its name, and `add` adds one. What is turned away is turned away with the error that `refusal` gives. -/
structure Faithful (r : Roster α key) (accepted : List α) (get? : String → Option α)
    (find : String → Except ε (Option α)) (add : α → Except CompileError β)
    (refusal : α → CompileError) : Prop where
  /-- The items stand in the order in which they were accepted. -/
  items : r.items = accepted
  distinct : (r.items.map key).Nodup
  /-- What is kept for a name is the position of the item that has it, and nothing else is kept. -/
  position : ∀ name i, (name, i) ∈ r.positions ↔ ∃ h : i < r.items.length, key r.items[i] = name
  /-- No name has two positions. -/
  single : (r.positions.map Prod.fst).Nodup
  found : ∀ name item, get? name = some item ↔ item ∈ accepted ∧ key item = name
  /-- No position leads past the last item. -/
  total : ∀ name, find name = .ok (get? name)
  refused : ∀ item e, add item = .error e ↔
    (∃ other ∈ r.items, key other = key item) ∧ e = refusal item

theorem MadeOf.faithful (h : r.MadeOf accepted) {find : String → Except ε (Option α)}
    {add : α → Except CompileError β} {refusal : α → CompileError}
    (hfind : ∀ name found, r.find name = .ok found → find name = .ok found)
    (hadd : ∀ item e, add item = .error e ↔ r.contains (key item) = true ∧ e = refusal item) :
    r.Faithful accepted r.get? find add refusal where
  items := h.items
  distinct := h.valid.distinct
  position := fun _ _ => h.mem_positions
  single := by
    rw [h.map_fst_positions]
    exact List.nodup_reverse.mpr h.valid.distinct
  found := fun _ _ => h.get?_eq_some
  total := fun name => hfind name _ (h.find_eq_get? name)
  refused := fun item e => by rw [hadd, h.valid.contains_iff]

end Roster

/-! ### Machines -/

namespace StateMachine

/-- What arrives at a machine. -/
inductive Arrival
  | func (f : Func)
  | type (d : TypeDef)

namespace Arrival

def func? : Arrival → Option Func
  | func f => some f
  | type _ => none

def type? : Arrival → Option TypeDef
  | func _ => none
  | type d => some d

end Arrival

/-- The machine with what arrives. -/
def take (m : StateMachine) : Arrival → Except CompileError StateMachine
  | .func f => m.addFunc f
  | .type d => .ok (m.addType d)

/-- The machine when all of these have arrived. -/
def after (m : StateMachine) (past : List Arrival) : StateMachine := Arrivals.after take m past

/-- Those of the arrivals that the machine does not turn away. -/
def accepted (m : StateMachine) (past : List Arrival) : List Arrival :=
  Arrivals.accepted take m past

variable {m m' : StateMachine} {past acc : List Arrival} {a : Arrival} {e : CompileError}

theorem after_append (m : StateMachine) (past rest : List Arrival) :
    m.after (past ++ rest) = (m.after past).after rest := Arrivals.after_append m past rest

/-- The machine is made of the functions accepted so far and of all types that arrived. -/
structure MadeOf (past accepted : List Arrival) (m : StateMachine) : Prop where
  functions : m.roster.MadeOf (accepted.filterMap Arrival.func?)
  types : m.types = past.filterMap Arrival.type?

theorem MadeOf.take (h : MadeOf past acc m) (ha : m.take a = .ok m') :
    MadeOf (past ++ [a]) (acc ++ [a]) m' := by
  cases a with
  | func f =>
      obtain ⟨roster, hadd, rfl⟩ := addFunc_eq_ok.mp ha
      refine ⟨?_, ?_⟩
      · rw [List.filterMap_append]
        exact h.functions.add? hadd
      · rw [List.filterMap_append, ← h.types]
        exact (List.append_nil _).symm
  | type d =>
      cases ha
      refine ⟨?_, ?_⟩
      · rw [List.filterMap_append, show [Arrival.type d].filterMap Arrival.func? = [] from rfl,
          List.append_nil]
        exact h.functions
      · rw [List.filterMap_append, ← h.types]
        rfl

theorem MadeOf.refuse (h : MadeOf past acc m) (ha : m.take a = .error e) :
    MadeOf (past ++ [a]) acc m := by
  cases a with
  | func f =>
      refine ⟨h.functions, ?_⟩
      rw [List.filterMap_append, ← h.types]
      exact (List.append_nil _).symm
  | type d => cases ha

end StateMachine

/-- A function that compiles arrives at the machine around it; one that fails leaves the machine. -/
theorem FuncDecl.machine_compile (s : Site) (d : FuncDecl) :
    (d.compile s).2.machine =
      s.machine.map fun m => m.after ((d.compile s).1.toOption.toList.map .func) := by
  obtain ⟨u, -, -, ⟨e, hc, -⟩ | ⟨f, -, ⟨hm, -, hc⟩ | ⟨m, m', hm, hadd, hc⟩⟩⟩ := compile_cases s d <;>
    rw [hc]
  · exact Option.map_id'.symm
  · rw [hm]
    rfl
  · rw [hm]
    exact congrArg some (Arrivals.after_of_ok hadd).symm

namespace StateMachine

/-- What is known of a machine when these have arrived at it. -/
structure Indexed (new : StateMachine) (past : List Arrival) : Prop where
  functions : (new.after past).roster.Faithful ((new.accepted past).filterMap Arrival.func?)
    (new.after past).findFunc? (new.after past).findFunc (new.after past).addFunc
    fun f => .duplicate .func f.ident f.location
  /-- The types stand in the order of their arrival; none is turned away. -/
  types : (new.after past).types = past.filterMap Arrival.type?
  /-- A function that is turned away changes nothing. -/
  unchanged : ∀ f e, (new.after past).addFunc f = .error e →
    new.after (past ++ [.func f]) = new.after past
  /-- Without all those that were turned away the machine is the same. -/
  traceless : new.after (new.accepted past) = new.after past
  /-- A function that compiles has arrived. If it fails, because it is turned away or for another reason,
  the compiler goes on with the machine as it was. -/
  continued : ∀ (s : Site) (d : FuncDecl), s.machine = some (new.after past) →
    (d.compile s).2.machine =
      some (new.after (past ++ (d.compile s).1.toOption.toList.map .func))

theorem indexed (ident : String) (location : Location) (attributes : Attributes)
    (past : List Arrival) : Indexed { ident, location, attributes } past := by
  have h : MadeOf past _ (after { ident, location, attributes } past) :=
    Arrivals.invariant ⟨.empty, rfl⟩ (fun h ha => h.take ha) (fun h ha => h.refuse ha) past
  refine ⟨h.functions.faithful ?_ fun f e => addFunc_eq_error, h.types, ?_,
    Arrivals.after_accepted _ past, ?_⟩
  · intro name found hfound
    rw [findFunc, hfound]
    rfl
  · intro f e he
    rw [after_append]
    exact Arrivals.after_of_error he
  · intro s d hs
    rw [d.machine_compile, hs, after_append]
    rfl

end StateMachine

/-! ### The registry -/

namespace MachineRegistry

/-- The registry when all of these machines have arrived. -/
def after (past : List StateMachine) : MachineRegistry := Arrivals.after register .empty past

/-- Those of the machines that get registered. -/
def accepted (past : List StateMachine) : List StateMachine :=
  Arrivals.accepted register .empty past

theorem after_append (past rest : List StateMachine) :
    after (past ++ rest) = Arrivals.after register (after past) rest :=
  Arrivals.after_append _ past rest

end MachineRegistry

theorem DeclRun.arrivals_add {r r' : DeclRun} {d : Decl} {c : Compiled} (t : SymbolTable)
    (h : r.add d c = .ok r') :
    r'.machines =
      Arrivals.after MachineRegistry.register r.machines (Turn.output ⟨d, t, .ok c⟩).machines := by
  cases c with
  | func f =>
      cases h
      rfl
  | type τ =>
      cases h
      rfl
  | machine c =>
      unfold add at h
      dsimp only at h
      split at h
      · rename_i machines hregister
        cases h
        exact (Arrivals.after_of_ok hregister).symm
      · rename_i e hregister
        rw [machines_record h]
        exact (Arrivals.after_of_error hregister).symm

namespace MachineRegistry

/-- What is known of the registry when these machines have arrived at it. -/
structure Indexed (past : List StateMachine) : Prop where
  machines : (after past).Faithful (accepted past) (after past).get? (after past).find
    (after past).register fun m => .duplicate .machine m.ident m.location
  /-- The check that comes before compiling a machine fails if one of its name is there. -/
  checked : ∀ ident location e, (after past).checkUnique ident location = .error e ↔
    (∃ m ∈ (after past).items, m.ident = ident) ∧ e = .duplicate .machine ident location
  /-- A machine that is turned away changes nothing. -/
  unchanged : ∀ m e, (after past).register m = .error e → after (past ++ [m]) = after past
  /-- Without all those that were turned away the registry is the same. -/
  traceless : after (accepted past) = after past
  /-- A machine that compiles has arrived, and the compiler goes on with the registry after that. -/
  continued : ∀ (r r' : DeclRun) d c, r.machines = after past → r.add d (.machine c) = .ok r' →
    r'.machines = after (past ++ [c.machine])

theorem indexed (past : List StateMachine) : Indexed past := by
  have h : (after past).MadeOf (accepted past) :=
    Arrivals.invariant (P := fun _ acc r => Roster.MadeOf r acc) .empty
      (fun h ha => h.add? (register_eq_ok.mp ha)) (fun h _ => h) past
  refine ⟨h.faithful (fun _ _ => id) fun m e => register_eq_error, ?_, ?_,
    Arrivals.after_accepted _ past, ?_⟩
  · intro ident location e
    rw [checkUnique_eq_error, h.valid.contains_iff]
  · intro m e he
    rw [after_append]
    exact Arrivals.after_of_error he
  · intro r r' d c hr hadd
    rw [DeclRun.arrivals_add r.stage.site.table hadd, hr, after_append]
    rfl

end MachineRegistry

/-- At every moment the positions that a machine keeps for its functions are faithful, whatever functions
and types arrived at it so far, and so are those that the registry keeps for machines. -/
theorem Arrivals.indexes_faithful :
    (∀ ident location attributes past, StateMachine.Indexed { ident, location, attributes } past) ∧
    ∀ past, MachineRegistry.Indexed past :=
  ⟨StateMachine.indexed, MachineRegistry.indexed⟩

/-- A second function of one name is turned away; a type of that name is not. -/
example :
    let void : TypeSymbol := .void
    let m := StateMachine.after { ident := "L1" } [.func { ident := "next", returnType := void },
      .type ⟨.builtin "next" none, []⟩, .func { ident := "next", returnType := .builtin "int" none },
      .func { ident := "limit", returnType := void }]
    m.roster.positions = [("limit", 1), ("next", 0)] ∧
      m.functions.map Func.returnType = [void, void] ∧ m.types.length = 1 := by
  decide

/-! ### Machines of a session -/

theorem TypeDecl.machine_compile (s : Site) (d : TypeDecl) (state : Registration) :
    (d.compile s state).2.machine =
      s.machine.map fun m => m.after ((d.compile s state).1.toOption.toList.map .type) := by
  have hnone : s.machine = s.machine.map fun m => m.after [] := Option.map_id'.symm
  unfold compile
  split
  · rename_i table type _
    obtain ⟨u, -, ⟨e, hc, -⟩ | hc⟩ := compileDeclared_cases { s with table } type <;> rw [hc]
    · exact hnone
    · rfl
  · exact hnone
  · exact hnone

/-- What arrives at the machine around a declaration when it had its turn. -/
def Turn.arrival? (u : Turn) : Option StateMachine.Arrival :=
  match u.result with
  | .ok (.func f) => some (.func f)
  | .ok (.type d) => some (.type d)
  | _ => none

theorem Pending.arrivals_compileMember (s : Site) (p : Pending) :
    (p.compileMember s).2.machine = s.machine.map fun m =>
      m.after (Turn.arrival? ⟨p.decl, s.table, (p.compileMember s).1⟩).toList := by
  cases p with
  | func d =>
      rw [show (compileMember s (.func d)).1 = (d.compile s).1.map .func from rfl]
      refine (d.machine_compile s).trans ?_
      cases (d.compile s).1 <;> rfl
  | type d state =>
      rw [show (compileMember s (.type d state)).1 = (d.compile s state).1.map .type from rfl]
      refine (d.machine_compile s state).trans ?_
      cases (d.compile s state).1 <;> rfl
  | machine d => exact Option.map_id'.symm

namespace MemberRun

variable {r r' : MemberRun}

theorem arrivals_attempt (r : MemberRun) (p : Pending) :
    (r.attempt p).2.site.machine = r.stage.site.machine.map fun m =>
      m.after (Turn.arrival? ⟨p.decl, r.stage.site.table, (r.attempt p).1⟩).toList := by
  unfold attempt
  obtain ⟨e, hattempt⟩ | ⟨claimed, hattempt⟩ := r.stage.attempt_cases p.compileMember p.decl <;>
    rw [hattempt]
  · exact Option.map_id'.symm
  · exact p.arrivals_compileMember r.stage.site

theorem stage_step (r : MemberRun) (p : Pending) : (r.step p).2.stage = (r.attempt p).2 := by
  unfold step
  split
  · rename_i h
    rw [h]
  · rename_i h
    rw [h]
    split <;> rfl

/-- What comes of members arrives at the machine around them. -/
theorem arrivals_steps {ps : List Pending} (h : r.steps ps = (none, r')) :
    r'.stage.site.machine = r.stage.site.machine.map fun m =>
      m.after ((r.turns ps).filterMap Turn.arrival?) := by
  induction ps generalizing r with
  | nil =>
      cases h
      exact Option.map_id'.symm
  | cons p ps ih =>
      unfold steps at h
      split at h
      · cases h
      · rename_i r₁ hstep
        have hstage : r₁.stage = (r.attempt p).2 := by rw [← r.stage_step p, hstep]
        rw [ih h, hstage, arrivals_attempt, Option.map_map, turns, hstep]
        refine congrArg (r.stage.site.machine.map ·) (funext fun m => ?_)
        rw [List.filterMap_cons, Function.comp_apply, ← StateMachine.after_append]
        cases Turn.arrival? _ <;> rfl

end MemberRun

namespace DeclRun

variable {r r' : DeclRun}

theorem arrivals_step {p : Pending} (h : r.step p = .ok r') :
    r'.machines =
      Arrivals.after MachineRegistry.register r.machines (r.turn p).output.machines := by
  unfold step at h
  unfold turn
  cases hattempt : r.attempt p with
  | mk result stage =>
      rw [hattempt] at h
      dsimp only at h
      split at h
      · cases h
      · cases result with
        | ok c => exact arrivals_add r.stage.site.table (r := { r with stage }) h
        | error e => exact machines_record (r := { r with stage }) h

theorem arrivals_steps {ps : List Pending} (h : ps.foldlM step r = .ok r') :
    r'.machines = Arrivals.after MachineRegistry.register r.machines
      (Turn.outputs (r.turns ps)).machines := by
  induction ps generalizing r with
  | nil =>
      cases h
      rfl
  | cons p ps ih =>
      rw [List.foldlM_cons] at h
      obtain ⟨r₁, hstep, hsteps⟩ := bind_eq_ok.mp h
      have hturns : r.turns (p :: ps) = r.turn p :: r₁.turns ps := by simp only [turns, hstep]
      rw [ih hsteps, arrivals_step hstep, hturns]
      exact (Arrivals.after_append _ _ _).symm

end DeclRun

/-- A machine holds what comes of its members. -/
theorem MachineDecl.arrivals_compile {t : SymbolTable} {d : MachineDecl Decl} {c : CompiledMachine}
    (h : (d.compile t).1 = .ok c) :
    c.machine = d.initial.after ((d.turns t).filterMap Turn.arrival?) := by
  obtain ⟨r, hr, hm, -⟩ := compile_eq_ok.mp h
  have hsteps := MemberRun.arrivals_steps hr
  rw [hm] at hsteps
  exact Option.some.inj hsteps

namespace Session

theorem arrivals_compile {s s' : Session} (hs : s.Sound) {ds : List Decl} {out : Output}
    (h : s.compile ds = .ok (s', out)) :
    s'.machines = Arrivals.after MachineRegistry.register s.machines out.machines := by
  rw [output_of_compile hs h]
  obtain ⟨r, hr, hs'⟩ := bind_eq_ok.mp h
  cases hs'
  exact DeclRun.arrivals_steps hr

/-- The registry is what arrivals make, and so is each machine that arrived at it. -/
theorem Reached.arrivals {config : Config} {s : Session} (h : Reached config s) :
    ∃ past, s.machines = MachineRegistry.after past ∧
      ∀ m ∈ past, ∃ (d : MachineDecl Decl) (members : List StateMachine.Arrival),
        m = d.initial.after members := by
  induction h with
  | start hs =>
      obtain ⟨table, -, hs⟩ := bind_eq_ok.mp hs
      cases hs
      exact ⟨[], rfl, List.forall_mem_nil _⟩
  | @compile s s' ds out hs hc ih =>
      obtain ⟨past, hpast, hmachines⟩ := ih
      refine ⟨past ++ out.machines, ?_, List.forall_mem_append.mpr ⟨hmachines, fun m hm => ?_⟩⟩
      · rw [arrivals_compile hs.sound hc, hpast, MachineRegistry.after_append]
      · rw [output_of_compile hs.sound hc] at hm
        obtain ⟨-, -, hanswers, -⟩ := turns_spec hs.sound ds
        obtain ⟨w, -, d, c, -, -, rfl, hd⟩ := Turn.exists_of_mem_machines hm hanswers
        exact ⟨d, _, d.arrivals_compile hd⟩

end Session

end Coherence
