import Coherence.CommandLine.Run
import Coherence.Proofs.UnitLines
import Coherence.Proofs.UnitNames
/-!
# What a run of the program does

A `World` answers what a run asks of the files, as it likes and as it may depend on all that happened before;
the run leaves a trace of `Event`s. A run that compiles prints one line for each diagnostic, and touches the
files only if nothing failed. Then it writes the units into the output directory and nothing else, and a dry
run with the same arguments prints their names (`World.run_all_or_nothing`).
-/

namespace Coherence.CommandLine

/-! ### Arguments -/

def Arguments.dry (a : Arguments) : Arguments := { a with dryRun := true }

namespace Seen

/-- The option for a dry run is among the arguments seen. -/
def dry (s : Seen) : Seen := { s with dryRun := true }

variable {s : Seen} {a : Arguments} {words : List String}

theorem finish_dry (h : s.finish = .run a) : s.dry.finish = .run a.dry ∧ a.dryRun = s.dryRun := by
  unfold finish at h ⊢
  unfold dry
  cases hinput : s.input with
  | none =>
      rw [hinput] at h
      cases h
  | some input =>
      rw [hinput] at h
      cases houtDir : s.outDir <;> rw [houtDir] at h <;> cases h <;> exact ⟨rfl, rfl⟩

theorem addInput_dry (value : String) : s.dry.addInput value = (s.addInput value).map dry := by
  unfold addInput dry
  split <;> rfl

theorem addOption_dry (value : String) (name : OptionName) :
    s.dry.addOption value name = (s.addOption value name).map dry := by
  cases name <;> unfold addOption dry <;> dsimp only <;> split <;> rfl

theorem dryRun_addInput {value : String} {s' : Seen} (h : s.addInput value = some s') :
    s'.dryRun = s.dryRun := by
  unfold addInput at h
  split at h <;> cases h
  rfl

theorem dryRun_addOption {value : String} {name : OptionName} {s' : Seen}
    (h : s.addOption value name = some s') : s'.dryRun = s.dryRun := by
  cases name <;> unfold addOption at h <;> dsimp only at h <;> split at h <;> cases h <;> rfl

theorem parseInputs_dry (h : s.parseInputs words = .run a) :
    s.dry.parseInputs words = .run a.dry ∧ a.dryRun = s.dryRun := by
  induction words generalizing s with
  | nil => exact finish_dry h
  | cons word rest ih =>
      unfold parseInputs at h ⊢
      rw [addInput_dry]
      split at h
      · rename_i s' hadd
        obtain ⟨hdry, hsame⟩ := ih h
        rw [hadd]
        exact ⟨hdry, hsame.trans (dryRun_addInput hadd)⟩
      · cases h

/-- Where a run is asked for in the end, the argument was accepted. -/
theorem exists_of_parse {next : Option Seen}
    (h : (match next with | some s => s.parse words | none => .invalid) = .run a) :
    ∃ s', next = some s' ∧ s'.parse words = .run a := by
  cases next with
  | none => cases h
  | some s' => exact ⟨s', rfl, h⟩

/-- The option for a dry run may as well come before all others. -/
theorem parse_dry : ∀ {s : Seen} {a : Arguments} {words : List String}, s.parse words = .run a →
    (s.dryRun = true → a.dryRun = true) ∧ (a.dryRun = false → s.dry.parse words = .run a.dry)
  | s, a, [], h => by
      obtain ⟨hdry, hsame⟩ := finish_dry h
      rw [hsame]
      exact ⟨id, fun _ => hdry⟩
  | s, a, word :: rest, h => by
      unfold parse at h ⊢
      cases hword : Argument.ofWord word with
      | input value =>
          simp only [hword, addInput_dry] at h ⊢
          obtain ⟨s', hadd, h⟩ := exists_of_parse h
          rw [hadd, ← dryRun_addInput hadd]
          exact parse_dry h
      | onlyInputs =>
          simp only [hword] at h ⊢
          obtain ⟨hdry, hsame⟩ := parseInputs_dry h
          rw [hsame]
          exact ⟨id, fun _ => hdry⟩
      | option name attached =>
          cases attached with
          | some value =>
              simp only [hword, addOption_dry] at h ⊢
              obtain ⟨s', hadd, h⟩ := exists_of_parse h
              rw [hadd, ← dryRun_addOption hadd]
              exact parse_dry h
          | none =>
              simp only [hword] at h ⊢
              cases rest with
              | nil => cases h
              | cons word rest =>
                  cases hvalue : Argument.ofWord word with
                  | input value =>
                      simp only [hvalue, addOption_dry] at h ⊢
                      obtain ⟨s', hadd, h⟩ := exists_of_parse h
                      rw [hadd, ← dryRun_addOption hadd]
                      exact parse_dry h
                  | _ => simp [hvalue] at h
      | dryRun =>
          -- Once the option is seen no run is left that is not a dry one.
          simp only [hword] at h
          split at h
          · cases h
          · have hmono : a.dryRun = true := (parse_dry h).1 rfl
            exact ⟨fun _ => hmono, fun ha => by rw [hmono] at ha; cases ha⟩
      | _ => simp [hword] at h

end Seen

theorem Request.parse_dryRun {words : List String} {a : Arguments} (h : Request.parse words = .run a)
    (ha : a.dryRun = false) : Request.parse ("--dry-run" :: words) = .run a.dry := by
  have hword : Argument.ofWord "--dry-run" = .dryRun := by decide
  unfold Request.parse at h ⊢
  simp only [Seen.parse, hword]
  exact (Seen.parse_dry h).2 ha

/-! ### Worlds and traces -/

/-- What a run did, with the answer that it got. -/
inductive Event
  | read (path : String) (answer : Except String String)
  | makeDir (path : String) (answer : MakeDir)
  | write (path contents : String) (answer : Except String Unit)
  | print (line : String)
  | complain (line : String)

namespace Event

/-- The line, if one was printed. -/
def line? : Event → Option String
  | print line => some line
  | _ => none

/-- Was a file written or a directory made, or was it tried? -/
def isChange : Event → Bool
  | makeDir .. => true
  | write .. => true
  | _ => false

/-- The path and the contents, if a file was written. -/
def file? : Event → Option (String × String)
  | write path contents (.ok _) => some (path, contents)
  | _ => none

end Event

def printed (trace : List Event) : List String := trace.filterMap Event.line?

def printedText (trace : List Event) : List Char :=
  (printed trace).flatMap fun line => line.toList ++ ['\n']

/-- What was done to the files. -/
def changes (trace : List Event) : List Event := trace.filter Event.isChange

def written (trace : List Event) : List (String × String) := trace.filterMap Event.file?

section traces

variable (t u : List Event) (lines : List String)

@[simp]
theorem printed_append : printed (t ++ u) = printed t ++ printed u := List.filterMap_append

@[simp]
theorem printed_print : printed (lines.map .print) = lines := by
  unfold printed
  rw [List.filterMap_map]
  exact List.filterMap_some

@[simp]
theorem printed_complain : printed (lines.map .complain) = [] := by
  simp [printed, Event.line?]

@[simp]
theorem changes_append : changes (t ++ u) = changes t ++ changes u := List.filter_append ..

@[simp]
theorem changes_print : changes (lines.map .print) = [] := by
  simp [changes, Event.isChange]

@[simp]
theorem changes_complain : changes (lines.map .complain) = [] := by
  simp [changes, Event.isChange]

@[simp]
theorem written_append : written (t ++ u) = written t ++ written u := List.filterMap_append

@[simp]
theorem written_print : written (lines.map .print) = [] := by
  simp [written, Event.file?]

@[simp]
theorem written_complain : written (lines.map .complain) = [] := by
  simp [written, Event.file?]

end traces

/-- The answers to what a run asks of the files. Each may depend on all that happened before. -/
structure World where
  read : List Event → String → Except String String
  makeDir : List Event → String → MakeDir
  write : List Event → String → String → Except String Unit

namespace World

/-- The files of the world, and a terminal. -/
def host (w : World) : Host (StateM (List Event)) where
  read path past := (w.read past path, past ++ [.read path (w.read past path)])
  makeDir path past := (w.makeDir past path, past ++ [.makeDir path (w.makeDir past path)])
  write path contents past :=
    (w.write past path contents, past ++ [.write path contents (w.write past path contents)])
  print line past := ((), past ++ [.print line])
  complain line past := ((), past ++ [.complain line])

/-- The exit code of a run and its trace. -/
def run (w : World) (words : List String) : UInt32 × List Event := CommandLine.run w.host words []

/-- The run reads this configuration and this declaration tree. -/
def Reads (w : World) (a : Arguments) (config : Config) (ds : List Decl) : Prop :=
  ∃ past, readConfig w.host a.config [] = (.ok config, past) ∧
    (readDecls w.host a.input past).1 = .ok ds

/-- A unit that was written into a directory. -/
def saved (dir : String) (u : OutputUnit) : Event := .write (Path.join dir u.name) u.contents (.ok ())

/-- If nothing was changed before, the directory can be made, and then each of the units is accepted after
those in front of it. -/
def Accepts (w : World) (dir : String) (units : List OutputUnit) : Prop :=
  ∀ past, changes past = [] → ∃ dirs, w.host.makeDirs dir past = (.ok (), past ++ dirs) ∧
    ∀ front u rest, units = front ++ u :: rest →
      w.write (past ++ dirs ++ front.map (saved dir)) (Path.join dir u.name) u.contents = .ok ()

end World

section trace

variable {w : World} {α β : Type}

theorem run_bind (x : StateM (List Event) α) (f : α → StateM (List Event) β) (past : List Event) :
    (x >>= f) past = f (x past).1 (x past).2 := rfl

/-- What the action adds to any trace are events of this sort. -/
def Adds (sort : Event → Prop) (x : StateM (List Event) α) : Prop :=
  ∀ past, ∃ new, (x past).2 = past ++ new ∧ ∀ e ∈ new, sort e

namespace Adds

variable {sort : Event → Prop} {x : StateM (List Event) α}

theorem pure (a : α) : Adds sort (Pure.pure a : StateM (List Event) α) :=
  fun past => ⟨[], (List.append_nil past).symm, List.forall_mem_nil _⟩

theorem bind {f : α → StateM (List Event) β} (hx : Adds sort x) (hf : ∀ a, Adds sort (f a)) :
    Adds sort (x >>= f) := by
  intro past
  obtain ⟨new, hnew, hsort⟩ := hx past
  obtain ⟨new', hnew', hsort'⟩ := hf (x past).1 (x past).2
  refine ⟨new ++ new', ?_, List.forall_mem_append.mpr ⟨hsort, hsort'⟩⟩
  rw [run_bind, hnew', hnew, List.append_assoc]

theorem imp {sort' : Event → Prop} (hx : Adds sort x) (h : ∀ e, sort e → sort' e) : Adds sort' x := by
  intro past
  obtain ⟨new, hnew, hsort⟩ := hx past
  exact ⟨new, hnew, fun e he => h e (hsort e he)⟩

end Adds

/-! ### What each part of a run adds to the trace -/

/-- Nothing is done to the files and nothing is printed. -/
def Event.Silent (e : Event) : Prop := e.isChange = false ∧ e.line? = none

theorem silent_trace {trace : List Event} (h : ∀ e ∈ trace, e.Silent) :
    printed trace = [] ∧ changes trace = [] ∧ written trace = [] := by
  refine ⟨List.filterMap_eq_nil_iff.mpr fun e he => (h e he).2, ?_, ?_⟩
  · exact List.filter_eq_nil_iff.mpr fun e he => by simp [(h e he).1]
  · refine List.filterMap_eq_nil_iff.mpr fun e he => ?_
    have hchange := (h e he).1
    cases e with
    | write path contents answer => cases hchange
    | _ => rfl

theorem adds_read (path : String) : Adds Event.Silent (w.host.read path) :=
  fun past => ⟨[.read path (w.read past path)], rfl, List.forall_mem_singleton.mpr ⟨rfl, rfl⟩⟩

theorem adds_readConfig (path : Option String) : Adds Event.Silent (readConfig w.host path) := by
  cases path with
  | none => exact .pure _
  | some path =>
      refine (adds_read path).bind fun answer => ?_
      cases answer with
      | error reason => exact .pure _
      | ok text =>
          dsimp only
          split
          · exact .pure _
          · exact .pure _

theorem adds_readDecls (path : String) : Adds Event.Silent (readDecls w.host path) := by
  refine (adds_read path).bind fun answer => ?_
  cases answer with
  | error reason => exact .pure _
  | ok text =>
      dsimp only
      split
      · exact .pure _
      · exact .pure _

/-- Nothing is printed, and no file is written. -/
def Event.Preparing (e : Event) : Prop := e.line? = none ∧ e.file? = none

theorem adds_makeDir (path : String) : Adds Event.Preparing (w.host.makeDir path) :=
  fun past => ⟨[.makeDir path (w.makeDir past path)], rfl, List.forall_mem_singleton.mpr ⟨rfl, rfl⟩⟩

theorem adds_climb (inside dirs : List String) : Adds Event.Preparing (w.host.climb inside dirs) := by
  induction dirs generalizing inside with
  | nil => exact .pure _
  | cons dir dirs ih =>
      refine (adds_makeDir dir).bind fun answer => ?_
      cases answer with
      | made => exact .pure _
      | present => exact .pure _
      | missing => exact ih _
      | refused reason => exact .pure _

theorem adds_makeEach (dirs : List String) : Adds Event.Preparing (w.host.makeEach dirs) := by
  induction dirs with
  | nil => exact .pure _
  | cons dir dirs ih =>
      refine (adds_makeDir dir).bind fun answer => ?_
      cases answer with
      | made => exact ih
      | present => exact ih
      | missing => exact .pure _
      | refused reason => exact .pure _

theorem adds_makeDirs (path : String) : Adds Event.Preparing (w.host.makeDirs path) := by
  unfold Host.makeDirs
  split
  · exact .pure _
  · refine (adds_climb _ _).bind fun answer => ?_
    cases answer with
    | ok missing => exact adds_makeEach missing
    | error reason => exact .pure _

theorem adds_write (path contents : String) :
    Adds (fun e => e.line? = none) (w.host.write path contents) :=
  fun past => ⟨[.write path contents (w.write past path contents)], rfl,
    List.forall_mem_singleton.mpr rfl⟩

theorem adds_writeUnits (dir : String) (units : List OutputUnit) :
    Adds (fun e => e.line? = none) (writeUnits w.host dir units) := by
  induction units with
  | nil => exact .pure _
  | cons u units ih =>
      refine (adds_write _ _).bind fun answer => ?_
      cases answer with
      | ok _ => exact ih
      | error reason => exact .pure _

theorem printAll_eq (lines : List String) (past : List Event) :
    printAll w.host lines past = ((), past ++ lines.map .print) := by
  induction lines generalizing past with
  | nil => exact Prod.ext rfl (List.append_nil past).symm
  | cons line lines ih =>
      show printAll w.host lines (past ++ [.print line]) = _
      rw [ih, List.append_assoc]
      rfl

theorem printComplaint_eq (complaint : Option String) (past : List Event) :
    Plan.carryOut.printComplaint w.host complaint past =
      ((), past ++ complaint.toList.map .complain) := by
  cases complaint with
  | none => exact Prod.ext rfl (List.append_nil past).symm
  | some complaint => rfl

/-- Units are written in order if each is accepted after those in front of it. -/
theorem writeUnits_eq {dir : String} {units : List OutputUnit} {past : List Event}
    (h : ∀ front u rest, units = front ++ u :: rest →
      w.write (past ++ front.map (World.saved dir)) (Path.join dir u.name) u.contents = .ok ()) :
    writeUnits w.host dir units past = (.ok (), past ++ units.map (World.saved dir)) := by
  induction units generalizing past with
  | nil => exact Prod.ext rfl (List.append_nil past).symm
  | cons u units ih =>
      have hwrite : w.host.write (Path.join dir u.name) u.contents past =
          (.ok (), past ++ [World.saved dir u]) := by
        have haccepted := h [] u units rfl
        rw [List.map_nil, List.append_nil] at haccepted
        simp only [World.host, World.saved, haccepted]
      have hrest : ∀ front v rest, units = front ++ v :: rest →
          w.write (past ++ [World.saved dir u] ++ front.map (World.saved dir)) (Path.join dir v.name)
            v.contents = .ok () := by
        intro front v rest heq
        rw [List.append_assoc]
        exact h (u :: front) v rest (by rw [heq, List.cons_append])
      unfold writeUnits
      rw [run_bind, hwrite]
      dsimp only
      rw [ih hrest, List.append_assoc]
      rfl

/-! ### Plans -/

variable {dir : String} {report : List String} {complaint : Option String} {succeeds : Bool}

theorem carryOut_none (past : List Event) :
    Plan.carryOut w.host dir ⟨report, complaint, none, succeeds⟩ past =
      (if succeeds then success else failure,
        past ++ report.map .print ++ complaint.toList.map .complain) := by
  unfold Plan.carryOut
  rw [run_bind, printAll_eq, run_bind, printComplaint_eq]
  rfl

theorem traces_carryOut_none (past : List Event) :
    changes (Plan.carryOut w.host dir ⟨report, complaint, none, succeeds⟩ past).2 = changes past ∧
      printed (Plan.carryOut w.host dir ⟨report, complaint, none, succeeds⟩ past).2 =
        printed past ++ report := by
  rw [carryOut_none]
  exact ⟨by simp, by simp⟩

theorem adds_giveUp (what path reason : String) :
    Adds (fun e => e.line? = none) (giveUp w.host what path reason) :=
  fun _ => ⟨[.complain (what ++ " '" ++ path ++ "': " ++ reason)], rfl,
    List.forall_mem_singleton.mpr rfl⟩

theorem printed_of_adds {x : StateM (List Event) α} (h : Adds (fun e => e.line? = none) x)
    (past : List Event) : printed (x past).2 = printed past := by
  obtain ⟨new, hnew, hsilent⟩ := h past
  have hnone : printed new = [] := List.filterMap_eq_nil_iff.mpr hsilent
  rw [hnew, printed_append, hnone, List.append_nil]

/-- The report is all that a plan prints, whatever the world answers. -/
theorem printed_carryOut (units : List OutputUnit) (past : List Event) :
    printed (Plan.carryOut w.host dir ⟨report, complaint, some units, succeeds⟩ past).2 =
      printed past ++ report := by
  unfold Plan.carryOut
  rw [run_bind, printAll_eq, run_bind, printComplaint_eq]
  refine (printed_of_adds (Adds.bind ?_ fun answer => ?_) _).trans (by simp)
  · exact (adds_makeDirs dir).imp fun e he => he.1
  · cases answer with
    | error reason => exact adds_giveUp _ _ _
    | ok _ =>
        refine (adds_writeUnits dir units).bind fun answer => ?_
        cases answer with
        | error reason => exact adds_giveUp _ _ _
        | ok _ => exact .pure _

/-- If the world accepts it, the units are written after the directory is made. -/
theorem carryOut_some {units : List OutputUnit} (h : w.Accepts dir units) {past : List Event}
    (hpast : changes past = []) :
    ∃ dirs, written dirs = [] ∧
      Plan.carryOut w.host dir ⟨report, complaint, some units, succeeds⟩ past =
        (success, past ++ report.map .print ++ complaint.toList.map .complain ++ dirs ++
          units.map (World.saved dir)) := by
  unfold Plan.carryOut
  rw [run_bind, printAll_eq, run_bind, printComplaint_eq]
  let start := past ++ report.map .print ++ complaint.toList.map .complain
  have hstart : changes start = [] := by simp [start, hpast]
  obtain ⟨dirs, hmake, hunits⟩ := h start hstart
  obtain ⟨new, hnew, hsort⟩ := adds_makeDirs (w := w) dir start
  rw [hmake] at hnew
  obtain rfl : dirs = new := List.append_cancel_left hnew
  refine ⟨dirs, List.filterMap_eq_nil_iff.mpr fun e he => (hsort e he).2, ?_⟩
  dsimp only
  rw [run_bind, hmake]
  dsimp only
  rw [run_bind, writeUnits_eq hunits]
  rfl

end trace

/-! ### Names -/

/-- The name stands for one file in a directory and takes one line. -/
def Plain (name : String) : Prop := '/' ∉ name.toList ∧ '\n' ∉ name.toList

instance (name : String) : Decidable (Plain name) := inferInstanceAs (Decidable (_ ∧ _))

/-- What comes before the names of the files in a directory. -/
def Path.front (dir : String) : String := if dir.toList.getLast? == some '/' then dir else dir ++ "/"

theorem Path.join_eq_front {dir name : String} (h : Plain name) :
    Path.join dir name = Path.front dir ++ name := by
  have hrelative : Path.isAbsolute name = false := by
    unfold Path.isAbsolute
    cases hname : name.toList with
    | nil => rfl
    | cons c cs =>
        have hc : c ≠ '/' := fun heq => h.1 (by rw [hname, heq]; exact List.mem_cons_self)
        simpa using hc
  unfold Path.join Path.front
  rw [hrelative]
  split
  · contradiction
  · split <;> rfl

/-- A text of lines that end in line breaks, cut at these, is the lines and nothing after the last. -/
theorem splitOn_lines {lines : List String} (h : ∀ line ∈ lines, '\n' ∉ line.toList) :
    (lines.flatMap fun line => line.toList ++ ['\n']).splitOn '\n' =
      lines.map String.toList ++ [[]] := by
  induction lines with
  | nil => rfl
  | cons line lines ih =>
      obtain ⟨hline, hlines⟩ := List.forall_mem_cons.mp h
      have hcut : (line.toList ++ '\n' :: lines.flatMap fun line => line.toList ++ ['\n']).splitOn '\n' =
          line.toList.splitOn '\n' ++ (lines.flatMap fun line => line.toList ++ ['\n']).splitOn '\n' :=
        List.splitOnP_append_cons _ _ (beq_self_eq_true '\n')
      rw [List.flatMap_cons, List.append_assoc, List.singleton_append, hcut, Text.splitOn_line hline,
        ih hlines]
      rfl

theorem splitOn_printedText {trace : List Event} {units : List OutputUnit}
    (h : printed trace = units.map OutputUnit.name) (hplain : ∀ u ∈ units, Plain u.name) :
    (printedText trace).splitOn '\n' = units.map (·.name.toList) ++ [[]] := by
  unfold printedText
  rw [h, splitOn_lines, List.map_map]
  · rfl
  · rintro _ hline
    obtain ⟨u, hu, rfl⟩ := List.mem_map.mp hline
    exact (hplain u hu).2

theorem written_saved {dir : String} {units : List OutputUnit} (h : ∀ u ∈ units, Plain u.name) :
    written (units.map (World.saved dir)) = units.map fun u => (Path.front dir ++ u.name, u.contents) := by
  unfold written
  rw [List.filterMap_map]
  refine (congrFun List.filterMap_eq_map' units).trans (List.map_congr_left fun u hu => ?_)
  rw [Path.join_eq_front (h u hu)]

theorem nodup_paths {units : List OutputUnit} (h : (units.map OutputUnit.name).Pairwise (· < ·))
    (dir : String) :
    ((units.map fun u => (Path.front dir ++ u.name, u.contents)).map Prod.fst).Nodup := by
  rw [List.map_map]
  refine List.pairwise_map.mpr ((List.pairwise_map.mp h).imp fun {u v} hlt heq => ?_)
  have htexts := congrArg String.toList heq
  simp only [Function.comp_apply, String.toList_append, List.append_cancel_left_eq] at htexts
  rw [String.toList_inj.mp htexts] at hlt
  exact String.lt_irrefl _ hlt

theorem written_carryOut {w : World} {dir : String} {units : List OutputUnit} (h : w.Accepts dir units)
    {report : List String} {complaint : Option String} {succeeds : Bool}
    (hplain : ∀ u ∈ units, Plain u.name) {past : List Event} (hpast : changes past = []) :
    (Plan.carryOut w.host dir ⟨report, complaint, some units, succeeds⟩ past).1 = success ∧
      written (Plan.carryOut w.host dir ⟨report, complaint, some units, succeeds⟩ past).2 =
        written past ++ units.map fun u => (Path.front dir ++ u.name, u.contents) := by
  obtain ⟨dirs, hdirs, hcarry⟩ := @carryOut_some w dir report complaint succeeds units h past hpast
  rw [hcarry]
  refine ⟨rfl, ?_⟩
  rw [written_append, written_append, written_append, written_append, written_print, written_complain,
    hdirs, written_saved hplain]
  simp

/-! ### Runs -/

theorem Plan.compile_of_compile {config : Config} {s₀ s : Session} {ds : List Decl} {out : Output}
    (hs₀ : Session.start config = .ok s₀) (hc : s₀.compile ds = .ok (s, out)) :
    Plan.compile config ds = if out.hasErrors
      then ⟨out.diagnostics.map Diagnostic.text, none, none, false⟩
      else ⟨out.diagnostics.map Diagnostic.text, none, some out.units, true⟩ := by
  unfold compile
  simp only [hs₀, hc]

namespace World

variable {w : World} {a : Arguments} {config : Config} {ds : List Decl} {words : List String}

/-- What a run does depends on its arguments once it read its files, and reading changes nothing. -/
theorem runWith_eq (h : w.Reads a config ds) : ∃ past, (∀ e ∈ past, e.Silent) ∧
    ∀ a' : Arguments, a'.config = a.config → a'.input = a.input →
      runWith w.host a' [] = (Plan.make a' config ds).carryOut w.host a'.outDir past := by
  obtain ⟨first, hconfig, hdecls⟩ := h
  obtain ⟨new, hnew, hsilent⟩ := adds_readConfig (w := w) a.config []
  obtain ⟨new', hnew', hsilent'⟩ := adds_readDecls (w := w) a.input first
  rw [hconfig, List.nil_append] at hnew
  obtain rfl : first = new := hnew
  have hread : readDecls w.host a.input first = (.ok ds, first ++ new') := Prod.ext hdecls hnew'
  refine ⟨first ++ new', List.forall_mem_append.mpr ⟨hsilent, hsilent'⟩, fun a' hc hi => ?_⟩
  unfold runWith
  rw [run_bind, hc, hconfig]
  dsimp only
  rw [run_bind, hi, hread]

theorem run_eq (h : Request.parse words = .run a) : w.run words = runWith w.host a [] := by
  unfold run CommandLine.run
  rw [h]

/-- A run that compiles fails without touching the files if the builtin types cannot be registered or a
declaration is in error; it prints the diagnostics in order, each on a line of its own. Otherwise a dry run
with the same arguments succeeds, prints the names of the units in order and touches nothing; and if the
world accepts it, the run succeeds and writes these units in the output directory, each to a file of its
own, and nothing else. -/
theorem run_all_or_nothing (hwords : Request.parse words = .run a) (ha : a.dryRun = false)
    (hreads : w.Reads a config ds) :
    (∀ e, Session.start config = .error e →
      (w.run words).1 = failure ∧ changes (w.run words).2 = [] ∧ printed (w.run words).2 = []) ∧
    ∀ s₀, Session.start config = .ok s₀ → ∃ s out, s₀.compile ds = .ok (s, out) ∧
      printed (w.run words).2 = out.diagnostics.map Diagnostic.text ∧
      (out.hasErrors = true → (w.run words).1 = failure ∧ changes (w.run words).2 = []) ∧
      (out.hasErrors = false → (∀ u ∈ out.units, Plain u.name) →
        ((w.run ("--dry-run" :: words)).1 = success ∧ changes (w.run ("--dry-run" :: words)).2 = [] ∧
          (printedText (w.run ("--dry-run" :: words)).2).splitOn '\n' =
            out.units.map (·.name.toList) ++ [[]] ∧
          (printed (w.run ("--dry-run" :: words)).2).Pairwise (· < ·)) ∧
        (w.Accepts a.outDir out.units → (w.run words).1 = success ∧
          written (w.run words).2 =
            out.units.map (fun u => (Path.front a.outDir ++ u.name, u.contents)) ∧
          ((written (w.run words).2).map Prod.fst).Nodup)) := by
  obtain ⟨past, hsilent, hafter⟩ := runWith_eq hreads
  obtain ⟨hprinted, hchanges, hwritten⟩ := silent_trace hsilent
  have hrun : w.run words = (Plan.compile config ds).carryOut w.host a.outDir past := by
    rw [run_eq hwords, hafter a rfl rfl, Plan.make, ha]
    rfl
  have hdry : w.run ("--dry-run" :: words) =
      (success, past ++ (Decl.outputFilesAll ds).names.map .print) := by
    rw [run_eq (Request.parse_dryRun hwords ha), hafter a.dry rfl rfl]
    exact (carryOut_none past).trans (Prod.ext rfl (List.append_nil _))
  rw [hrun, hdry]
  refine ⟨fun e he => ?_, fun s₀ hs₀ => ?_⟩
  · unfold Plan.compile
    simp only [he]
    obtain ⟨hquiet, hreport⟩ := traces_carryOut_none past
    exact ⟨congrArg Prod.fst (carryOut_none past), hquiet.trans hchanges,
      hreport.trans (by rw [hprinted]; rfl)⟩
  · have hsound := Session.sound_start hs₀
    obtain ⟨s, hc, -⟩ := Session.compile_eq hsound ds
    obtain ⟨hsorted, -, -, hnames⟩ := Session.names_turns hsound ds
    refine ⟨s, _, hc, ?_⟩
    generalize Turn.outputs (s₀.turns ds) = out at hc hsorted hnames ⊢
    rw [Plan.compile_of_compile hs₀ hc]
    cases herrors : out.hasErrors with
    | true =>
        rw [if_pos rfl]
        obtain ⟨hquiet, hreport⟩ := traces_carryOut_none past
        refine ⟨hreport.trans (by rw [hprinted, List.nil_append]), fun _ => ⟨?_, hquiet.trans hchanges⟩,
          fun h => (nomatch h)⟩
        exact congrArg Prod.fst (carryOut_none past)
    | false =>
        rw [if_neg (by simp)]
        have hlisted : printed (past ++ (Decl.outputFilesAll ds).names.map .print) =
            out.units.map OutputUnit.name := by
          rw [printed_append, hprinted, printed_print, hnames herrors, List.nil_append]
        refine ⟨?_, fun h => (nomatch h), fun _ hplain => ⟨⟨rfl, ?_, ?_, ?_⟩, fun haccepts => ?_⟩⟩
        · rw [printed_carryOut, hprinted, List.nil_append]
        · rw [changes_append, hchanges, changes_print]
          rfl
        · exact splitOn_printedText hlisted hplain
        · rw [hlisted]
          exact hsorted
        · obtain ⟨hcode, hfiles⟩ := written_carryOut haccepts hplain hchanges
          rw [hcode, hfiles, hwritten, List.nil_append]
          exact ⟨rfl, rfl, nodup_paths hsorted a.outDir⟩

/-- All files hold this text, and whatever is made or written is accepted. -/
def holding (text : String) : World where
  read _ _ := .ok text
  makeDir _ _ := .made
  write _ _ _ := .ok ()

theorem accepts_holding (text dir : String) (units : List OutputUnit) :
    (holding text).Accepts dir units := by
  intro past _
  obtain ⟨dirs, hdirs, -⟩ := adds_makeDirs (w := holding text) dir past
  refine ⟨dirs, Prod.ext ?_ hdirs, fun _ _ _ _ => rfl⟩
  unfold Host.makeDirs
  split
  · rfl
  · rfl

theorem reads_holding {text : String} (h : Decl.readAll? text = some ds) (input outDir : String) :
    (holding text).Reads { input, outDir } .prelude ds := by
  refine ⟨[], rfl, ?_⟩
  unfold readDecls
  rw [run_bind]
  simp only [holding, host, h]
  rfl

/-- The tree of an enumeration, as text. -/
def stateTree : String :=
  "[\x7b\"Type\": \x7b\"ident\": \"State\", \"body\": \x7b\"Enumeration\": [\"I\", \"M\"]\x7d\x7d\x7d]"

/-- It is compiled to two files, which a dry run lists. -/
theorem run_all_or_nothing_state : ∃ out : Output,
    out.units.map OutputUnit.name = ["State.cc", "State.hh"] ∧
    ((holding stateTree).run ["tree.json", "-o", "out"]).1 = success ∧
    written ((holding stateTree).run ["tree.json", "-o", "out"]).2 =
      out.units.map (fun u => ("out/" ++ u.name, u.contents)) ∧
    (printedText ((holding stateTree).run ["--dry-run", "tree.json", "-o", "out"]).2).splitOn '\n' =
      ["State.cc".toList, "State.hh".toList, []] := by
  have hrun : ((Decl.readAll? stateTree).bind fun ds => (Session.start .prelude).toOption.bind fun s =>
      (s.compile ds).toOption.map fun r => decide (r.2.hasErrors = false ∧
        (∀ u ∈ r.2.units, Plain u.name) ∧
        r.2.units.map OutputUnit.name = ["State.cc", "State.hh"])) = some true := by decide +kernel
  obtain ⟨ds, hds, hrun⟩ := Option.bind_eq_some_iff.mp hrun
  obtain ⟨s₀, hs₀, hrun⟩ := Option.bind_eq_some_iff.mp hrun
  obtain ⟨⟨s, out⟩, hc, hrun⟩ := Option.map_eq_some_iff.mp hrun
  rw [toOption_eq_some] at hs₀ hc
  obtain ⟨herrors, hplain, hnames⟩ := of_decide_eq_true hrun
  have hwords : Request.parse ["tree.json", "-o", "out"] = .run { input := "tree.json", outDir := "out" } := by
    decide
  obtain ⟨-, hcompiles⟩ := run_all_or_nothing hwords rfl (reads_holding hds "tree.json" "out")
  obtain ⟨s', out', hc', -, -, hsuccess⟩ := hcompiles s₀ hs₀
  rw [hc] at hc'
  cases hc'
  obtain ⟨⟨-, -, hlisted, -⟩, hwrites⟩ := hsuccess herrors hplain
  obtain ⟨hcode, hwritten, -⟩ := hwrites (accepts_holding _ _ _)
  refine ⟨out, hnames, hcode, hwritten.trans ?_, hlisted.trans ?_⟩
  · rw [show Path.front "out" = "out/" by decide]
  · rw [show out.units.map (·.name.toList) = (out.units.map OutputUnit.name).map String.toList by simp,
      hnames]
    rfl

end World

end Coherence.CommandLine
