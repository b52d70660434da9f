import Coherence.Proofs.Accounts
/-!
# Where errors are placed

The errors in an output are the failures of its declarations, each one once and in the name of the
declaration that failed (`Turn.failures`, `Failure.diagnostic`). An error that knows where it arose is placed
there. Any other one is placed at a declaration at top level: the one that failed, or the machine that holds
it (`Session.errors_placed`).
-/

namespace Coherence

/-- Where the error arose, if it is known. -/
def CompileError.place? (e : CompileError) : Option Location := e.location?.filter (· ≠ .unknown)

/-- A declaration that failed, and the declaration at top level that it is or that holds it. -/
structure Failure where
  decl : Decl
  error : CompileError
  root : Decl

namespace Failure

def diagnostic (f : Failure) : Diagnostic where
  severity := .error
  code := f.error.code
  message := "in `" ++ f.decl.ident ++ "`: " ++ f.error.message
  location := f.error.place?.getD f.root.location

theorem ofError_eq (f : Failure) :
    .ofError ⟨f.decl.ident, f.error⟩ f.root.location = f.diagnostic := by
  unfold Diagnostic.ofError diagnostic CompileError.place?
  cases f.error.location? with
  | none => rfl
  | some location => by_cases h : location = .unknown <;> simp [Option.filter, DeclError.message, h]

/-- A failure is placed as if at the declaration that failed, unless its place is not known and the
declarations stand at different places. -/
theorem location_eq_iff (f : Failure) :
    f.diagnostic.location = f.error.place?.getD f.decl.location ↔
      f.error.place? ≠ none ∨ f.root.location = f.decl.location := by
  show f.error.place?.getD f.root.location = _ ↔ _
  cases f.error.place? <;> simp

end Failure

namespace Turn

def error? (t : Turn) : Option CompileError :=
  match t.result with
  | .ok _ => none
  | .error e => some e

/-- The turns of the members, if the turn compiles a machine. -/
def members (t : Turn) : List Turn :=
  match t.decl, t.result with
  | .machine d, .ok _ => d.turns t.table
  | _, _ => []

/-- The failure of the declaration itself, or those of its members. -/
def failures (t : Turn) : List Failure :=
  t.error?.toList.map (fun e => ⟨t.decl, e, t.decl⟩) ++
    t.members.filterMap fun u => u.error?.map fun e => ⟨u.decl, e, t.decl⟩

variable {t : Turn}

theorem failure?_eq (t : Turn) : t.failure? = t.error?.map (⟨t.decl.ident, ·⟩) := by
  unfold failure? error?
  cases t.result <;> rfl

/-- What failed is the declaration or a member of it. -/
theorem decl_of_mem_failures (ht : t.table.Sound) {f : Failure} (hf : f ∈ t.failures) :
    f.root = t.decl ∧ (f.decl = f.root ∨ ∃ d, f.root = .machine d ∧ f.decl ∈ d.members) := by
  rcases List.mem_append.mp hf with hf | hf
  · obtain ⟨e, -, rfl⟩ := List.mem_map.mp hf
    exact ⟨rfl, .inl rfl⟩
  · obtain ⟨u, hu, hf⟩ := List.mem_filterMap.mp hf
    obtain ⟨e, -, rfl⟩ := Option.map_eq_some_iff.mp hf
    refine ⟨rfl, .inr ?_⟩
    unfold members at hu
    split at hu
    · rename_i d _ hd _
      refine ⟨d, hd, ?_⟩
      rw [← (d.turns_spec ht).1]
      exact List.mem_map_of_mem hu
    · cases hu

/-- Failures are reported as errors, and warnings are none. -/
theorem errors_machine (errors : List DeclError) (functions : List Func) (place : Location) :
    ((errors.map fun e => Diagnostic.ofError e place) ++ functions.filterMap Func.warning?).filter
      (fun d => d.severity = .error) = errors.map fun e => .ofError e place := by
  have hwarnings : (functions.filterMap Func.warning?).filter (fun d => d.severity = .error) = [] := by
    rw [List.filter_eq_nil_iff]
    intro d hd
    obtain ⟨f, -, hf⟩ := List.mem_filterMap.mp hd
    unfold Func.warning? at hf
    split at hf
    · cases hf
      exact Bool.false_ne_true
    · cases hf
  rw [List.filter_append, hwarnings, List.append_nil, List.filter_eq_self]
  intro d hd
  obtain ⟨e, -, rfl⟩ := List.mem_map.mp hd
  rfl

/-- A turn reports its failures, and no other errors. -/
theorem errors_output (ht : t.table.Sound) (h : t.Answers none) :
    t.output.errors = t.failures.map Failure.diagnostic := by
  obtain ⟨decl, table, result⟩ := t
  cases result with
  | error e =>
      have hmembers : members ⟨decl, table, .error e⟩ = [] := by
        unfold members
        cases decl <;> rfl
      have hfailures : failures ⟨decl, table, .error e⟩ = [⟨decl, e, decl⟩] := by
        unfold failures
        rw [hmembers]
        rfl
      rw [hfailures, List.map_singleton, ← Failure.ofError_eq]
      rfl
  | ok c =>
      have hanswer := h c rfl
      cases decl <;> cases c <;> try exact hanswer.elim
      case func.func d f => exact (diagnostics_warning? f).1
      case type.type d τ => rfl
      case machine.machine d c =>
        obtain ⟨-, herrors⟩ := d.gains_compile ht hanswer.2
        have houtput : (output ⟨.machine d, table, .ok (.machine c)⟩).errors =
            c.errors.map fun e => .ofError e d.location :=
          errors_machine c.errors c.machine.functions d.location
        have hfailures : failures ⟨.machine d, table, .ok (.machine c)⟩ =
            (d.turns table).filterMap fun u => u.error?.map fun e => ⟨u.decl, e, .machine d⟩ := rfl
        rw [houtput, hfailures, herrors, List.map_filterMap, List.map_filterMap]
        refine List.filterMap_congr fun u _ => ?_
        rw [failure?_eq, Option.map_map, Option.map_map]
        cases u.error? with
        | none => rfl
        | some e => exact congrArg some (Failure.ofError_eq ⟨u.decl, e, .machine d⟩)

theorem errors_outputs (ts : List Turn) : (outputs ts).errors = ts.flatMap fun t => t.output.errors := by
  induction ts with
  | nil => rfl
  | cons t ts ih => rw [List.flatMap_cons, ← ih, ← Output.errors_append]; rfl

end Turn

namespace Session

/-- The errors in an output are the failures of its declarations, in source order, each under the name of the
declaration that failed. A failure is placed where its error arose, and if that is not known at the
declaration at top level that failed or holds the one that did. So it is placed at the declaration that it
names, or where the error arose, unless a member failed, for a reason without a place, that stands elsewhere
than its machine. -/
theorem errors_placed {config : Config} {s : Session} (hs : Reached config s) (ds : List Decl) :
    ∃ s' out, s.compile ds = .ok (s', out) ∧ (s.turns ds).map Turn.decl = ds ∧
      out.errors = ((s.turns ds).flatMap Turn.failures).map Failure.diagnostic ∧
      ∀ t ∈ s.turns ds, ∀ f ∈ t.failures, f.root = t.decl ∧
        (f.decl = f.root ∨ ∃ d, f.root = .machine d ∧ f.decl ∈ d.members) ∧
        (∀ place, f.error.place? = some place → f.diagnostic.location = place) ∧
        (f.error.place? = none → f.diagnostic.location = f.root.location) ∧
        (f.diagnostic.location = f.error.place?.getD f.decl.location ↔
          f.error.place? ≠ none ∨ f.root.location = f.decl.location) := by
  obtain ⟨s', hcompile, -⟩ := compile_eq hs.sound ds
  obtain ⟨hdecls, htables, hanswers, -⟩ := turns_spec hs.sound ds
  refine ⟨s', _, hcompile, hdecls, ?_, fun t ht f hf => ?_⟩
  · rw [Turn.errors_outputs, List.map_flatMap]
    exact List.flatMap_congr fun t ht => Turn.errors_output (htables t ht) (hanswers t ht)
  · obtain ⟨hroot, hdecl⟩ := Turn.decl_of_mem_failures (htables t ht) hf
    refine ⟨hroot, hdecl, fun place h => ?_, fun h => ?_, f.location_eq_iff⟩
    · exact congrArg (Option.getD · f.root.location) h
    · exact congrArg (Option.getD · f.root.location) h

/-- A function that fails, and a machine of which two members fail; one of the errors has a place. -/
def misplaced : List Decl := [
  .func {
    returnType := { ident := "Missing" }, ident := "reset", location := { file := "MI.sm", line := 1 } },
  .machine {
    ident := "L1", location := { file := "MI.sm", line := 3 }
    members := [
      .func {
        returnType := { ident := "Missing" }, ident := "next"
        location := { file := "MI.sm", line := 5 } },
      .func {
        returnType := { ident := "Missing", location := { file := "MI.sm", line := 7 } }, ident := "last"
        location := { file := "MI.sm", line := 6 } }] }]

/-- They are placed where their errors arose, at the function, and at the machine. -/
theorem errors_placed_misplaced : ∃ s₀ s out, start .prelude = .ok s₀ ∧ s₀.compile misplaced = .ok (s, out) ∧
    out.errors = ((s₀.turns misplaced).flatMap Turn.failures).map Failure.diagnostic ∧
    out.errors.map (fun d => (d.message, d.location)) = [
      ("in `reset`: undefined type `Missing`", { file := "MI.sm", line := 1 }),
      ("in `next`: undefined type `Missing`", { file := "MI.sm", line := 3 }),
      ("in `last`: undefined type `Missing`", { file := "MI.sm", line := 7 })] := by
  have hrun : ((start .prelude).toOption.bind fun s => (s.compile misplaced).toOption.map fun r =>
      decide (r.2.errors.map (fun d => (d.message, d.location)) = [
        ("in `reset`: undefined type `Missing`", { file := "MI.sm", line := 1 }),
        ("in `next`: undefined type `Missing`", { file := "MI.sm", line := 3 }),
        ("in `last`: undefined type `Missing`", { file := "MI.sm", line := 7 })])) = some true := by
    decide +kernel
  obtain ⟨s₀, hs₀, hrun⟩ := Option.bind_eq_some_iff.mp hrun
  obtain ⟨⟨s, out⟩, hc, hplaces⟩ := Option.map_eq_some_iff.mp hrun
  rw [toOption_eq_some] at hs₀ hc
  obtain ⟨s', out', hcompile, -, herrors, -⟩ := errors_placed (.start hs₀) misplaced
  rw [hcompile] at hc
  cases hc
  exact ⟨s₀, s, out, hs₀, hcompile, herrors, of_decide_eq_true hplaces⟩

/-- The error of the member `next` does not know where it arose, and it is not placed at the member. -/
theorem errors_misplaced : ∃ s₀ s out, start .prelude = .ok s₀ ∧ s₀.compile misplaced = .ok (s, out) ∧
    ∃ t ∈ s₀.turns misplaced, ∃ f ∈ t.failures, f.diagnostic ∈ out.diagnostics ∧
      f.diagnostic.severity = .error ∧ f.diagnostic.message = "in `next`: undefined type `Missing`" ∧
      f.decl.ident = "next" ∧ f.error.place? = none ∧
      f.decl.location = { file := "MI.sm", line := 5 } ∧
      f.diagnostic.location = { file := "MI.sm", line := 3 } := by
  have hrun : ((start .prelude).toOption.bind fun s => (s.compile misplaced).toOption.map fun r =>
      let failures := (s.turns misplaced).flatMap Turn.failures
      decide (("next", none, { file := "MI.sm", line := 5 }, {
          severity := .error, code := "E0102", message := "in `next`: undefined type `Missing`"
          location := { file := "MI.sm", line := 3 } }) ∈
        failures.map (fun f => (f.decl.ident, f.error.place?, f.decl.location, f.diagnostic)) ∧
      ∀ d ∈ failures.map Failure.diagnostic, d ∈ r.2.diagnostics)) = some true := by
    decide +kernel
  obtain ⟨s₀, hs₀, hrun⟩ := Option.bind_eq_some_iff.mp hrun
  obtain ⟨⟨s, out⟩, hc, hrun⟩ := Option.map_eq_some_iff.mp hrun
  rw [toOption_eq_some] at hs₀ hc
  obtain ⟨hnext, hlisted⟩ := of_decide_eq_true hrun
  obtain ⟨f, hf, heq⟩ := List.mem_map.mp hnext
  have hdiagnostic := hlisted _ (List.mem_map_of_mem hf)
  obtain ⟨t, ht, hf⟩ := List.mem_flatMap.mp hf
  simp only [Prod.mk.injEq] at heq
  obtain ⟨hident, hplace, hlocation, hreport⟩ := heq
  exact ⟨s₀, s, out, hs₀, hc, t, ht, f, hf, hdiagnostic, by rw [hreport], by rw [hreport], hident, hplace,
    hlocation, by rw [hreport]⟩

end Session

end Coherence
