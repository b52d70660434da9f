import Coherence.Proofs.Runs
/-!
# No run ends early

Whatever lists of declarations a session is given, and whatever is wrong with them, each list is
compiled to its end. The frames are balanced then, every name leads to the function or machine kept
for it, and no turn ends with anything but a result or a failure of that one declaration
(`compileAll_never_stops`). Writing units is a total function of an output, so it cannot stop either.
-/

namespace Coherence

namespace Session

variable {s : Session}

theorem Sound.depth (h : s.Sound) : s.table.depth = 1 := by
  simp [SymbolTable.depth, SymbolTable.frames, h.outer]

/-- At no turn of a list the compiler stops, nor is a machine refused once it is compiled. -/
theorem Sound.turn (h : s.Sound) {ds : List Decl} {done todo : List Pending} {p : Pending}
    (hds : (Decl.predeclareAll s.table none ds).2 = done ++ p :: todo) :
    ∃ r, done.foldlM DeclRun.step (s.begin (Decl.predeclareAll s.table none ds).1) = .ok r ∧
      Harmless (r.attempt p).1 ∧ ∀ c, (r.attempt p).1 = .ok (.machine c) →
        ∃ registry, r.machines.register c.machine = .ok registry := by
  have hbegin := sound_begin h ds
  rw [hds] at hbegin
  obtain ⟨r, hr, hsound⟩ := DeclRun.sound_done done hbegin
  obtain ⟨hharmless, -⟩ := DeclRun.sound_attempt hsound
  refine ⟨r, hr, hharmless, fun c hc => ?_⟩
  obtain ⟨registry, hreg, -⟩ := DeclRun.register_of_attempt hsound hc
  exact ⟨registry, hreg⟩

theorem Sound.compileAll (h : s.Sound) (batches : List (List Decl)) :
    ∃ s' outputs, s.compileAll batches = .ok (s', outputs) ∧ s'.Sound ∧
      outputs.length = batches.length ∧ ∀ o ∈ outputs, ∀ m ∈ o.machines, m.roster.Valid := by
  induction batches generalizing s with
  | nil => exact ⟨s, [], rfl, h, rfl, fun o ho => by cases ho⟩
  | cons ds batches ih =>
      obtain ⟨s₁, hs₁, hsound₁, hitems⟩ := compile_eq h ds
      obtain ⟨s₂, outputs, hs₂, hsound₂, hlen, hvalid⟩ := ih hsound₁
      refine ⟨s₂, Turn.outputs (s.turns ds) :: outputs, ?_, hsound₂, congrArg Nat.succ hlen, ?_⟩
      · exact bind_eq_ok.mpr ⟨_, hs₁, bind_eq_ok.mpr ⟨_, hs₂, rfl⟩⟩
      · intro o ho m hm
        rcases List.mem_cons.mp ho with rfl | ho
        · exact hsound₁.rosters m (by simp [hitems, hm])
        · exact hvalid o ho m hm

/-- No list of declarations stops a session that the configuration starts: each is compiled, the
outermost frame alone is open after it, and all names are found by their positions. At each turn of
the next list, too, there is a result or the failure of one declaration, and a machine that compiled
gets registered. -/
theorem compileAll_never_stops {config : Config} {s₀ : Session} (h : Session.start config = .ok s₀)
    (batches : List (List Decl)) :
    ∃ s outputs, s₀.compileAll batches = .ok (s, outputs) ∧ outputs.length = batches.length ∧
      s.table.depth = 1 ∧ (∀ name, ∃ found, s.machines.find name = .ok found) ∧
      (∀ o ∈ outputs, ∀ m ∈ o.machines, ∀ name, ∃ found, m.findFunc name = .ok found) ∧
      ∀ ds done p todo, (Decl.predeclareAll s.table none ds).2 = done ++ p :: todo →
        ∃ r, done.foldlM DeclRun.step (s.begin (Decl.predeclareAll s.table none ds).1) = .ok r ∧
          Harmless (r.attempt p).1 ∧ ∀ c, (r.attempt p).1 = .ok (.machine c) →
            ∃ registry, r.machines.register c.machine = .ok registry := by
  obtain ⟨s, outputs, hs, hsound, hlen, hvalid⟩ := (sound_start h).compileAll batches
  refine ⟨s, outputs, hs, hlen, hsound.depth, hsound.registry.find, ?_, ?_⟩
  · intro o ho m hm name
    exact StateMachine.findFunc_of_valid (hvalid o ho m hm) name
  · intro ds done p todo hds
    exact hsound.turn hds

/-- A session with the builtin types, given a type, and then a machine of which one member fails. -/
theorem compileAll_never_stops_prelude : ∃ s₀, Session.start .prelude = .ok s₀ ∧
    ∃ s outputs, s₀.compileAll [[.type { ident := "State", body := .enumeration ["I", "M"] }],
        [.machine { ident := "L1", members := [
          .func { returnType := { ident := "State" }, ident := "current" },
          .func { returnType := { ident := "Missing" }, ident := "next" }] }]] =
          .ok (s, outputs) ∧ s.table.depth = 1 := by
  obtain ⟨s₀, h⟩ : ∃ s₀, Session.start .prelude = .ok s₀ := ⟨_, rfl⟩
  obtain ⟨s, outputs, hs, -, hdepth, -⟩ := compileAll_never_stops h _
  exact ⟨s₀, h, s, outputs, hs, hdepth⟩

end Session

end Coherence
