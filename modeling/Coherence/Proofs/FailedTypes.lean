import Coherence.Proofs.BuiltinNames
/-!
# Types that fail

The types in a list of declarations are registered before the first declaration is compiled, and nothing
takes a type back afterwards. So what a name means after a list is told from the declarations alone: it is
what the name meant before, or else the first type of that name, whether it compiled or not
(`Session.findType?_compile`). A type that fails keeps its name for good, unless the name was taken when it
was registered (`Session.failed_type_bound`).
-/

namespace Coherence

/-! ### Registration -/

theorem SymbolTable.Keyed.find?_eq_none {t : SymbolTable} (h : t.Keyed) {name : String}
    (hname : t.findType? name = none) : t.top.find? name .type = none := by
  cases hbound : t.top.find? name .type with
  | none => rfl
  | some s =>
      have hkind := (Symbol.key_eq_iff.mp (h.key_of_find? List.mem_cons_self hbound)).2
      cases s with
      | type τ =>
          rw [SymbolTable.findType?_of_top hbound] at hname
          cases hname
      | func f => cases hkind
      | var v => cases hkind

namespace Decl

/-- The first type of this name that a list of declarations registers in the frame `home`, outside of
machines. -/
def firstType? (home : FrameId) (ds : List Decl) (name : String) : Option TypeSymbol :=
  (ds.filterMap (symbol? none home)).find? fun τ => τ.ident = name

theorem firstType?_append (home : FrameId) (ds ds' : List Decl) (name : String) :
    firstType? home (ds ++ ds') name = (firstType? home ds name).or (firstType? home ds' name) := by
  unfold firstType?
  rw [List.filterMap_append, List.find?_append]

theorem firstType?_type (t : SymbolTable) (d : TypeDecl) (ds : List Decl) :
    firstType? t.top.id (.type d :: ds) d.ident = some (t.adopt (d.symbol none)) := by
  have hident : decide ((t.adopt (d.symbol none)).ident = d.ident) = true := decide_eq_true rfl
  unfold firstType?
  rw [symbols_cons]
  exact List.find?_cons_of_pos hident

/-- Registering types gives a name the first of them as its meaning, if it had none. -/
theorem findType?_registered {t : SymbolTable} (ht : t.Sound) (houter : t.outer = []) (ds : List Decl)
    (name : String) : (predeclareAll t none ds).1.findType? name =
      (t.findType? name).or (firstType? t.top.id ds name) := by
  cases hname : t.findType? name with
  | none =>
      rw [findType?_predeclareAll (ht.keyed.find?_eq_none hname), hname]
      exact Option.or_none
  | some τ =>
      have hbound := SymbolTable.findType?_eq_some.mp hname
      rw [SymbolTable.lookup_eq_or, houter, List.findSome?_nil, Option.or_none] at hbound
      exact SymbolTable.findType?_of_top (find?_predeclareAll none ds hbound)

theorem getElem?_predeclareAll (machine : Option String) (t : SymbolTable) (ds : List Decl) (i : Nat) :
    (predeclareAll t machine ds).2[i]? =
      ds[i]?.map fun d => (d.predeclare (predeclareAll t machine (ds.take i)).1 machine).2 := by
  induction ds generalizing t i with
  | nil => rfl
  | cons d ds ih =>
      cases i with
      | zero => rfl
      | succ i => exact ih (d.predeclare t machine).1 i

theorem rejected_predeclare {machine : Option String} {t : SymbolTable} {d : TypeDecl} {s : Symbol}
    (h : t.top.find? d.ident .type = some s) : ((Decl.type d).predeclare t machine).2.Rejected := by
  simp only [predeclare, TypeDecl.predeclare]
  split
  · rename_i hd
    obtain ⟨hfree, -⟩ := SymbolTable.declare_eq_ok.mp hd
    exact absurd (h.symm.trans hfree) (Option.some_ne_none s)
  · rename_i e _
    exact ⟨d, e, rfl⟩

end Decl

/-- A type whose registration was refused does not compile. -/
theorem DeclRun.refused_turns {r : DeclRun} {ps : List Pending} (h : r.Sound ps) :
    List.Forall₂ (fun p u => p.Rejected → ¬u.Compiles) ps (r.turns ps) := by
  induction ps generalizing r with
  | nil => exact .nil
  | cons p ps ih =>
      obtain ⟨r', hstep, hsound, -⟩ := sound_step h
      simp only [turns, hstep]
      refine .cons ?_ (ih hsound)
      rintro ⟨d, e, rfl⟩ ⟨c, hc⟩
      unfold turn at hc
      obtain ⟨e', hattempt⟩ | ⟨claimed, hattempt⟩ := r.attempt_cases (.type d (.rejected e)) <;>
        rw [hattempt] at hc <;> cases hc

namespace Turn

/-- The name means this type, and whatever compiles finds its types by what their names mean. -/
structure Finds (name : String) (τ : TypeSymbol) (w : Turn) : Prop where
  found : w.table.findType? name = some τ
  resolved : w.Resolved none

/-- If this is the turn of a type of this name, it fails. -/
def Refuses (name : String) (w : Turn) : Prop :=
  ∀ d, w.decl = .type d → d.ident = name → ¬w.Compiles

theorem mem_diagnostics_outputs {ts : List Turn} {t : Turn} (ht : t ∈ ts) {d : Diagnostic}
    (hd : d ∈ t.output.diagnostics) : d ∈ (outputs ts).diagnostics := by
  induction ts with
  | nil => cases ht
  | cons u ts ih =>
      show d ∈ u.output.diagnostics ++ (outputs ts).diagnostics
      rcases List.mem_cons.mp ht with rfl | ht
      · exact List.mem_append_left _ hd
      · exact List.mem_append_right _ (ih ht)

end Turn

namespace Session

variable {config : Config} {s s' : Session} {ds : List Decl} {out : Output} {u w : Turn}

/-! ### What a name means -/

/-- What the name means where the declaration at position `i` of a list is registered: the type that it
meant before the list, or else the first one of the name before that position. -/
def takenBy (s : Session) (ds : List Decl) (i : Nat) (name : String) : Option TypeSymbol :=
  (s.table.findType? name).or (Decl.firstType? s.table.top.id (ds.take i) name)

theorem takenBy_of_bound {i : Nat} {name : String} {τ : TypeSymbol}
    (h : s.table.findType? name = some τ) : s.takenBy ds i name = some τ := by
  unfold takenBy
  rw [h, Option.some_or]

theorem takenBy_of_le {i j : Nat} (hij : i ≤ j) {name : String} {τ : TypeSymbol}
    (h : s.takenBy ds i name = some τ) : s.takenBy ds j name = some τ := by
  obtain ⟨k, rfl⟩ := Nat.exists_eq_add_of_le hij
  unfold takenBy at h ⊢
  rw [List.take_add, Decl.firstType?_append, ← Option.or_assoc, h, Option.some_or]

theorem takenBy_own {i j : Nat} (hij : i < j) {d : TypeDecl} (hd : ds[i]? = some (.type d))
    (hfree : s.takenBy ds i d.ident = none) :
    s.takenBy ds j d.ident = some (s.table.adopt (d.symbol none)) := by
  refine takenBy_of_le (Nat.succ_le_of_lt hij) ?_
  unfold takenBy at hfree ⊢
  rw [List.take_add_one, hd, Option.toList_some, Decl.firstType?_append, ← Option.or_assoc, hfree,
    Option.none_or]
  exact Decl.firstType?_type s.table d []

/-- While a list is compiled, and after it, a name means the type that it meant before, or else the first
type of that name in the list. Whether types or other declarations compile does not matter. -/
theorem findType?_compile (hs : Reached config s) (hc : s.compile ds = .ok (s', out)) (name : String) :
    (∀ w ∈ s.turns ds, w.table.findType? name = s.takenBy ds ds.length name) ∧
      s'.table.findType? name = s.takenBy ds ds.length name := by
  have hregistered : (Decl.predeclareAll s.table none ds).1.findType? name =
      s.takenBy ds ds.length name := by
    unfold takenBy
    rw [List.take_length]
    exact Decl.findType?_registered hs.sound.table hs.sound.outer ds name
  obtain ⟨hturns, hlast⟩ := DeclRun.forall_turns
    (P := fun v => v.table.findType? name = s.takenBy ds ds.length name)
    (Q := fun w => w.table.findType? name = s.takenBy ds ds.length name)
    (fun v p ps hv hm hP =>
      ⟨(SymbolTable.findType?_congr (Pending.lookup_compile hm hv name)).trans hP, hP⟩)
    (fun _ _ _ hP => hP) (sound_begin hs.sound ds) hregistered
  refine ⟨hturns, ?_⟩
  unfold compile at hc
  obtain ⟨r, hr, heq⟩ := bind_eq_ok.mp hc
  cases heq
  exact hlast r hr

theorem findType?_compileAll {batches : List (List Decl)} {outs : List Output} {name : String}
    {τ : TypeSymbol} (hs : Reached config s) (hc : s.compileAll batches = .ok (s', outs))
    (h : s.table.findType? name = some τ) : s'.table.findType? name = some τ := by
  obtain ⟨outputs, hglobals⟩ := hs.globals
  rw [SymbolTable.findType?_eq_some] at h ⊢
  exact lookup_compileAll hglobals hs hc h

theorem refused_of_takenBy (hs : Reached config s) {i : Nat} (hw : (s.turns ds)[i]? = some w) {d : TypeDecl}
    (hd : w.decl = .type d) {τ : TypeSymbol} (htaken : s.takenBy ds i d.ident = some τ) :
    ¬w.Compiles := by
  have hdecl : ds[i]? = some (.type d) := hd ▸ decl_turns hs.sound hw
  have hkept := Decl.predeclareAll_frame none s.table (ds.take i)
  have hmeans := Decl.findType?_registered hs.sound.table hs.sound.outer (ds.take i) d.ident
  rw [show (s.table.findType? d.ident).or _ = some τ from htaken, SymbolTable.findType?_eq_some,
    SymbolTable.lookup_eq_or, hkept.1, hs.sound.outer, List.findSome?_nil, Option.or_none] at hmeans
  have hpending := Decl.getElem?_predeclareAll none s.table ds i
  rw [hdecl, Option.map_some] at hpending
  have hrefused := List.forall₂_iff_get.mp (DeclRun.refused_turns (sound_begin hs.sound ds))
  obtain ⟨hi, hget⟩ := List.getElem?_eq_some_iff.mp hpending
  obtain ⟨hi', hget'⟩ := List.getElem?_eq_some_iff.mp hw
  have hat := hrefused.2 i hi hi'
  rw [List.get_eq_getElem, List.get_eq_getElem, hget] at hat
  exact hget' ▸ hat (Decl.rejected_predeclare hmeans)

/-! ### A type that fails -/

/-- A type that fails is reported and keeps its name: from then on the name means the type that failed, or
the one that had the name when the type was registered. That holds in the rest of the list and in all lists
after it, whatever they declare. Whatever compiles there finds that type under the name, and no type of the
name is accepted any more. -/
theorem failed_type_bound (hs : Reached config s) {i : Nat} (hu : (s.turns ds)[i]? = some u) {d : TypeDecl}
    (hd : u.decl = .type d) (hfail : ¬u.Compiles) :
    ∃ s' out e τ, s.compile ds = .ok (s', out) ∧ u.result = .error e ∧
      .ofError ⟨d.ident, e⟩ d.location ∈ out.diagnostics ∧
      τ = (s.takenBy ds i d.ident).getD (s.table.adopt (d.symbol none)) ∧
      s'.table.findType? d.ident = some τ ∧ (∀ w ∈ s.turns ds, w.Finds d.ident τ) ∧
      (∀ j w, i ≤ j → (s.turns ds)[j]? = some w → w.Refuses d.ident) ∧
      ∀ batches s'' outs, s'.compileAll batches = .ok (s'', outs) →
        s''.table.findType? d.ident = some τ ∧
        ∀ later, ∀ w ∈ s''.turns later, w.Finds d.ident τ ∧ w.Refuses d.ident := by
  obtain ⟨s', hc, -⟩ := compile_eq hs.sound ds
  obtain ⟨e, he⟩ : ∃ e, u.result = .error e := by
    cases hresult : u.result with
    | ok c => exact absurd ⟨c, hresult⟩ hfail
    | error e => exact ⟨e, rfl⟩
  have hdecl : ds[i]? = some (.type d) := hd ▸ decl_turns hs.sound hu
  -- Whoever had the name when the type was registered has it for the rest of the list.
  have htaken : ∀ j, i < j → s.takenBy ds j d.ident =
      some ((s.takenBy ds i d.ident).getD (s.table.adopt (d.symbol none))) := by
    intro j hij
    cases hfree : s.takenBy ds i d.ident with
    | none => exact takenBy_own hij hdecl hfree
    | some τ => exact takenBy_of_le (Nat.le_of_lt hij) hfree
  have hlength : i < ds.length := (List.getElem?_eq_some_iff.mp hdecl).1
  obtain ⟨hfound, hafter⟩ := findType?_compile hs hc d.ident
  rw [htaken _ hlength] at hfound hafter
  refine ⟨s', _, e, _, hc, he, ?_, rfl, hafter, fun w hw => ⟨hfound w hw, ?_⟩, fun j w hij hw => ?_,
    fun batches s'' outs hbatches => ?_⟩
  · have hreport : Diagnostic.ofError ⟨d.ident, e⟩ d.location ∈ u.output.diagnostics := by
      unfold Turn.output
      rw [he, hd]
      exact List.mem_singleton_self _
    exact Turn.mem_diagnostics_outputs (List.mem_of_getElem? hu) hreport
  · exact (resolved_turns hs.sound ds w hw).1
  · rintro b hb hname
    rcases Nat.eq_or_lt_of_le hij with rfl | hij
    · rw [hu] at hw
      cases hw
      exact hfail
    · exact refused_of_takenBy hs hw hb (hname ▸ htaken j hij)
  · have hreached := (hs.compile hc).compileAll hbatches
    have hbound := findType?_compileAll (hs.compile hc) hbatches hafter
    refine ⟨hbound, fun later w hw => ⟨⟨?_, (resolved_turns hreached.sound later w hw).1⟩, ?_⟩⟩
    · obtain ⟨t, ht, -⟩ := compile_eq hreached.sound later
      rw [(findType?_compile hreached ht d.ident).1 w hw, takenBy_of_bound hbound]
    · rintro b hb hname
      obtain ⟨j, hj⟩ := List.getElem?_of_mem hw
      exact refused_of_takenBy hreached hj hb (hname ▸ takenBy_of_bound hbound)

/-- A structure with a field of a type that does not exist. -/
def failedEntry : TypeDecl := { ident := "Entry", body := .record [
  { type := { ident := "Missing" }, ident := "state" }] }

/-- In the next list the structure is declared again, and a function has it as its result. -/
def correctedEntry : List (List Decl) := [[.type failedEntry], [
  .type { ident := "Entry", body := .record [{ type := { ident := "int" }, ident := "state" }] },
  .func { returnType := { ident := "Entry" }, ident := "next" }]]

/-- The name means the structure that failed, and no other type of the name is accepted. -/
theorem failed_type_bound_entry : ∃ s₀ s out, start .prelude = .ok s₀ ∧
    s₀.compile [.type failedEntry] = .ok (s, out) ∧
    s.table.findType? "Entry" = some (failedEntry.symbol none) ∧
    ∀ later, ∀ w ∈ s.turns later,
      w.Finds "Entry" (failedEntry.symbol none) ∧ w.Refuses "Entry" := by
  have hrun : ((start .prelude).toOption.bind fun s => (s.turns [.type failedEntry])[0]?.map fun u =>
      decide (u.result.toOption = none ∧ s.takenBy [.type failedEntry] 0 "Entry" = none ∧
        s.table.adopt (failedEntry.symbol none) = failedEntry.symbol none)) = some true := by
    decide +kernel
  obtain ⟨s₀, hs₀, hrun⟩ := Option.bind_eq_some_iff.mp hrun
  obtain ⟨u, hu, hrun⟩ := Option.map_eq_some_iff.mp hrun
  rw [toOption_eq_some] at hs₀
  obtain ⟨hresult, hfree, hown⟩ := of_decide_eq_true hrun
  have hreached : Reached .prelude s₀ := .start hs₀
  have hdecl := decl_turns hreached.sound hu
  have hfail : ¬u.Compiles := by
    rintro ⟨c, hc⟩
    rw [hc] at hresult
    cases hresult
  obtain ⟨s, out, e, τ, hc, -, -, hτ, hbound, -, -, hlater⟩ :=
    failed_type_bound hreached hu (Option.some.inj hdecl).symm hfail
  have hsymbol : τ = failedEntry.symbol none := by
    rw [hτ]
    show (s₀.takenBy _ 0 "Entry").getD _ = _
    rw [hfree, Option.getD_none, hown]
  rw [hsymbol] at hbound hlater
  exact ⟨s₀, s, out, hs₀, hc, hbound, (hlater [] s [] rfl).2⟩

/-- The name stays with the structure that failed: the corrected one is refused as a duplicate, and the
function compiles against the structure that failed. -/
theorem corrected_type_refused : ∃ s₀ s outs f, start .prelude = .ok s₀ ∧
    s₀.compileAll correctedEntry = .ok (s, outs) ∧
    outs.map (fun o => o.diagnostics.map Diagnostic.message) = [
      ["in `Entry`: undefined type `Missing`"],
      ["in `Entry`: duplicate type `Entry` in the same scope"]] ∧
    s.table.findType? "Entry" = some (failedEntry.symbol none) ∧
    outs.flatMap Output.functions = [f] ∧ f.returnType = failedEntry.symbol none := by
  have hrun : ((start .prelude).toOption.bind fun s => (s.compileAll correctedEntry).toOption.map fun r =>
      decide (r.2.map (fun o => o.diagnostics.map Diagnostic.message) = [
          ["in `Entry`: undefined type `Missing`"],
          ["in `Entry`: duplicate type `Entry` in the same scope"]] ∧
        r.1.table.findType? "Entry" = some (failedEntry.symbol none) ∧
        (r.2.flatMap Output.functions).map Func.returnType = [failedEntry.symbol none])) = some true := by
    decide +kernel
  obtain ⟨s₀, hs₀, hrun⟩ := Option.bind_eq_some_iff.mp hrun
  obtain ⟨r, hc, hrun⟩ := Option.map_eq_some_iff.mp hrun
  rw [toOption_eq_some] at hs₀ hc
  obtain ⟨hmessages, hbound, hreturn⟩ := of_decide_eq_true hrun
  obtain ⟨f, hfunctions, hf⟩ := List.map_eq_singleton_iff.mp hreturn
  exact ⟨s₀, r.1, r.2, f, hs₀, hc, hmessages, hbound, hfunctions, hf⟩

end Session

end Coherence
