import Coherence.Proofs.Acceptance
/-!
# What a body leaves in its frame

The statements of a body are checked in the innermost frame, up to the end or to the first one that fails,
at whatever depth it fails (`Body.Progress`). The frames around the innermost one are as before, and so are
the symbols that it had. What is new in it are the variables that those of the accepted statements declare
that stand in the body itself, and nothing that was declared in a block (`SymbolTable.Residue`).
-/

namespace Coherence

open SymbolTable (Kept Grown Untouched)

/-- A local variable as it is declared. -/
structure Local where
  type : TypeName
  ident : String
  location : Location

/-- The variable that a statement declares itself; what stands in its blocks does not count. -/
def Stmt.local? : Stmt → Option Local
  | .declare type ident _ location => some ⟨type, ident, location⟩
  | _ => none

theorem Stmt.eq_declare_of_local? {s : Stmt} {l : Local} (h : s.local? = some l) :
    ∃ init, s = .declare l.type l.ident init l.location := by
  cases s with
  | declare type ident init location =>
      cases h
      exact ⟨init, rfl⟩
  | eval expr location => cases h
  | ret value location => cases h
  | assign lhs rhs location => cases h
  | branch cond thenBlock elseBlock location => cases h

/-- The variable is the declared one, of the type that the declaration names. -/
structure Local.Becomes (t : SymbolTable) (l : Local) (v : Var) : Prop where
  ident : v.ident = l.ident
  location : v.location = l.location
  type : t.findType? l.type.ident = some v.type

/-! ### Tables with more variables -/

namespace SymbolTable

variable {t u : SymbolTable} {owner : Option String} {touched : TypeSymbol.Key → Prop}

theorem outer_bindVars (t : SymbolTable) (vars : List Var) : (t.bindVars vars).outer = t.outer := by
  induction vars generalizing t with
  | nil => rfl
  | cons v vs ih => exact ih (t.bind (.var v))

theorem define_bindVars (t : SymbolTable) (vars : List Var) (τ : TypeSymbol) :
    (t.bindVars vars).define τ = t.define τ := by
  induction vars generalizing t with
  | nil => rfl
  | cons v vs ih => exact ih (t.bind (.var v))

theorem find?_bindVars {vars : List Var} (h : t.Fresh (vars.map Var.ident)) {name : String}
    {kind : SymbolKind} {s : Symbol} :
    (t.bindVars vars).top.find? name kind = some s ↔
      t.top.find? name kind = some s ∨ ∃ v ∈ vars, s = .var v ∧ s.key = (name, kind) := by
  induction vars generalizing t with
  | nil => simp [bindVars]
  | cons v vs ih =>
      obtain ⟨hfree, hfresh⟩ := (fresh_cons v _).mp h
      have hbind : (t.bind (.var v)).top.find? name kind = some s ↔
          t.top.find? name kind = some s ∨ s = .var v ∧ s.key = (name, kind) := by
        rw [find?_bind]
        split
        · rename_i hkey
          obtain ⟨rfl, rfl⟩ := Prod.mk.inj hkey
          have hnone : t.top.find? (Symbol.var v).name (Symbol.var v).kind = none := hfree
          simp only [hnone, Option.some.injEq, reduceCtorEq, false_or]
          exact ⟨fun heq => ⟨heq.symm, heq ▸ rfl⟩, fun heq => heq.1.symm⟩
        · rename_i hkey
          refine (or_iff_left ?_).symm
          rintro ⟨rfl, heq⟩
          exact hkey heq.symm
      rw [show t.bindVars (v :: vs) = (t.bind (.var v)).bindVars vs from rfl, ih hfresh, hbind, or_assoc]
      simp only [List.exists_mem_cons_iff]

theorem bindVars_append (t : SymbolTable) (vars others : List Var) :
    t.bindVars (vars ++ others) = (t.bindVars vars).bindVars others := List.foldl_append

theorem fresh_append {vars : List Var} {names : List String} :
    t.Fresh (vars.map Var.ident ++ names) ↔
      t.Fresh (vars.map Var.ident) ∧ (t.bindVars vars).Fresh names := by
  induction vars generalizing t with
  | nil => exact (and_iff_right (.nil t)).symm
  | cons v vs ih =>
      rw [List.map_cons, List.cons_append, fresh_cons, fresh_cons, ih, and_assoc]
      rfl

theorem Kept.bind (h : Kept owner touched t u) (s : Symbol) :
    Kept owner touched (t.bind s) (u.bind s) := by
  refine ⟨⟨h.opened, h.fieldTypes⟩, ?_, h.outer⟩
  unfold SymbolTable.bind
  rw [h.top]

theorem Kept.bindVars (h : Kept owner touched t u) (vars : List Var) :
    Kept owner touched (t.bindVars vars) (u.bindVars vars) := by
  induction vars generalizing t u with
  | nil => exact h
  | cons v vs ih => exact ih (h.bind (.var v))

theorem Kept.fresh (h : Kept owner touched t u) {names : List String} :
    u.Fresh names ↔ t.Fresh names := by
  unfold Fresh
  rw [h.top]

/-- `u` is `t` with the variables that these declarations become, and with nothing else. -/
structure Residue (t : SymbolTable) (locals : List Local) (vars : List Var) (u : SymbolTable) :
    Prop where
  declared : List.Forall₂ (Local.Becomes t) locals vars
  /-- The variables have different names, and none had its name in the frame before. -/
  fresh : t.Fresh (vars.map Var.ident)
  depth : u.depth = t.depth
  outer : u.outer = t.outer
  kept : ∀ name kind s, t.top.find? name kind = some s → u.top.find? name kind = some s
  added : ∀ name kind s, t.top.find? name kind = none →
    (u.top.find? name kind = some s ↔ ∃ v ∈ vars, s = .var v ∧ s.key = (name, kind))
  /-- Types and functions are those of before. -/
  others : ∀ name kind, kind ≠ .var → u.top.find? name kind = t.top.find? name kind
  types : ∀ τ, u.define τ = t.define τ

theorem Residue.of_kept {locals : List Local} {vars : List Var}
    (hdeclared : List.Forall₂ (Local.Becomes t) locals vars) (hfresh : t.Fresh (vars.map Var.ident))
    (h : Kept owner Untouched (t.bindVars vars) u) : t.Residue locals vars u where
  declared := hdeclared
  fresh := hfresh
  depth := by
    unfold SymbolTable.depth SymbolTable.frames
    rw [List.length_cons, List.length_cons, h.outer, outer_bindVars]
  outer := h.outer.trans (outer_bindVars t vars)
  kept := by
    intro name kind s hs
    rw [h.top]
    exact (find?_bindVars hfresh).mpr (.inl hs)
  added := by
    intro name kind s hnone
    rw [h.top, find?_bindVars hfresh, hnone]
    simp only [reduceCtorEq, false_or]
  others := by
    intro name kind hkind
    rw [h.top]
    refine Option.ext fun s => (find?_bindVars hfresh).trans (or_iff_left ?_)
    rintro ⟨v, -, rfl, hkey⟩
    exact hkind (Symbol.key_eq_iff.mp hkey).2.symm
  types := fun τ => (h.define id).trans (define_bindVars t vars τ)

end SymbolTable

namespace Body

variable (c : BodyContext)

/-! ### One statement -/

/-- A block leaves nothing, and so does a statement that declares nothing itself. -/
theorem kept_generateOne (t : SymbolTable) (out : Listing) {s : Stmt} (h : s.local? = none) :
    Kept none Untouched t (generateOne c t out s).table := by
  have block (u : SymbolTable) (out : Listing) (ss : List Stmt) :
      Kept none Untouched u (generate c u.push out ss).close.table :=
    (grown_generate c u.push out ss).close
  cases s with
  | eval expr location =>
      simp only [generateOne, table_emit]
      exact .refl
  | ret value location =>
      simp only [generateOne, table_emit]
      exact .refl
  | assign lhs rhs location =>
      simp only [generateOne, table_emit]
      exact .refl
  | declare type ident init location => cases h
  | branch cond thenBlock elseBlock location =>
      have first : Kept none Untouched t (thenOutcome c t out cond thenBlock).table := block t _ thenBlock
      cases elseBlock with
      | none =>
          rw [generateOne_branch]
          split
          · exact .refl
          · split <;> exact first
      | some elseBlock =>
          have second := first.trans
            (block _ ((thenOutcome c t out cond thenBlock).listing.dedent.line elseText).indent elseBlock)
          rw [generateOne_branchElse]
          split
          · exact .refl
          · split
            · exact first
            · dsimp only
              split <;> exact second

/-- What one statement leaves is what it declares itself, or nothing if it fails. -/
theorem generateOne_residue (t : SymbolTable) (out : Listing) (s : Stmt) :
    ∃ vars, Kept none Untouched (t.bindVars vars) (generateOne c t out s).table ∧
      t.Fresh (vars.map Var.ident) ∧
      ((generateOne c t out s).error = none →
        List.Forall₂ (Local.Becomes t) s.local?.toList vars) ∧
      ∀ e, (generateOne c t out s).error = some e → vars = [] := by
  cases hlocal : s.local? with
  | none =>
      exact ⟨[], kept_generateOne c t out hlocal, .nil t, fun _ => .nil, fun _ _ => rfl⟩
  | some l =>
      obtain ⟨init, rfl⟩ := Stmt.eq_declare_of_local? hlocal
      unfold generateOne
      split
      · rename_i symbol u hd
        simp only [BodyContext.declareLocal, bind_eq_ok] at hd
        obtain ⟨τ, hτ, -, -, u, hu, heq⟩ := hd
        cases heq
        obtain ⟨hfree, rfl⟩ := SymbolTable.declare_eq_ok.mp hu
        have hbecomes : l.Becomes t ⟨l.ident, l.location, symbol⟩ :=
          ⟨rfl, rfl, SymbolTable.resolveType_ok_iff.mp hτ⟩
        refine ⟨[⟨l.ident, l.location, symbol⟩], .refl, ?_, fun _ => .cons hbecomes .nil, ?_⟩
        · exact (SymbolTable.fresh_cons _ _).mpr ⟨hfree, .nil _⟩
        · rintro e ⟨⟩
      · refine ⟨[], .refl, .nil t, ?_, fun _ _ => rfl⟩
        rintro ⟨⟩

/-! ### All statements of a body -/

/-- The statements are checked up to the end or to one that fails, and those in `done` are accepted. -/
structure Progress (t : SymbolTable) (out : Listing) (ss done rest : List Stmt) : Prop where
  statements : ss = done ++ rest
  accepted : (generate c t out done).error = none
  complete : (generate c t out ss).error = none → rest = []
  failed : ∀ e, (generate c t out ss).error = some e →
    ∃ s rest', rest = s :: rest' ∧ (generate c t out (done ++ [s])).error = some e

variable {c} {t : SymbolTable} {out : Listing} {s : Stmt} {ss done rest : List Stmt}

theorem generate_of_accepted (h : (generateOne c t out s).error = none) (ss : List Stmt) :
    generate c t out (s :: ss) =
      generate c (generateOne c t out s).table (generateOne c t out s).listing ss := by
  rw [generate_cons, h]

theorem generate_of_failed {e : CompileError} (h : (generateOne c t out s).error = some e)
    (ss : List Stmt) : generate c t out (s :: ss) = generateOne c t out s := by
  rw [generate_cons, h]

theorem Progress.of_failed {e : CompileError} (h : (generateOne c t out s).error = some e)
    (ss : List Stmt) : Progress c t out (s :: ss) [] (s :: ss) where
  statements := rfl
  accepted := rfl
  complete := fun hnone => by
    rw [generate_of_failed h, h] at hnone
    cases hnone
  failed := fun e' he' => by
    rw [generate_of_failed h] at he'
    exact ⟨s, ss, rfl, by rwa [List.nil_append, generate_of_failed h]⟩

theorem Progress.cons (h : (generateOne c t out s).error = none)
    (hss : Progress c (generateOne c t out s).table (generateOne c t out s).listing ss done rest) :
    Progress c t out (s :: ss) (s :: done) rest where
  statements := congrArg (s :: ·) hss.statements
  accepted := by
    rw [generate_of_accepted h]
    exact hss.accepted
  complete := by
    rw [generate_of_accepted h]
    exact hss.complete
  failed := fun e he => by
    rw [generate_of_accepted h] at he
    obtain ⟨s', rest', hrest, he'⟩ := hss.failed e he
    exact ⟨s', rest', hrest, by rwa [List.cons_append, generate_of_accepted h]⟩

/-- Statements leave what those of them declare that were accepted, one after another. -/
theorem generate_progress (c : BodyContext) (t : SymbolTable) (out : Listing) (ss : List Stmt) :
    ∃ done rest vars, Progress c t out ss done rest ∧
      List.Forall₂ (Local.Becomes t) (done.filterMap Stmt.local?) vars ∧
      t.Fresh (vars.map Var.ident) ∧
      Kept none Untouched (t.bindVars vars) (generate c t out ss).table := by
  induction ss generalizing t out with
  | nil =>
      refine ⟨[], [], [], ⟨rfl, rfl, fun _ => rfl, ?_⟩, .nil, .nil t, .refl⟩
      rintro e ⟨⟩
  | cons s ss ih =>
      obtain ⟨first, hkept, hfresh, haccepted, hfailed⟩ := generateOne_residue c t out s
      cases he : (generateOne c t out s).error with
      | some e =>
          cases hfailed e he
          refine ⟨[], s :: ss, [], .of_failed he ss, .nil, hfresh, ?_⟩
          rw [generate_of_failed he]
          exact hkept
      | none =>
          obtain ⟨done, rest, others, hprogress, hdeclared, hnew, hothers⟩ :=
            ih (generateOne c t out s).table (generateOne c t out s).listing
          -- The statement binds variables only, so the others find the types that there were before it.
          have htypes : ∀ l v, Local.Becomes (generateOne c t out s).table l v → l.Becomes t v := by
            rintro l v ⟨hident, hlocation, htype⟩
            refine ⟨hident, hlocation, ?_⟩
            rwa [(grown_generateOne c t out s).findType?] at htype
          have hlocals : (s :: done).filterMap Stmt.local? =
              s.local?.toList ++ done.filterMap Stmt.local? := by
            cases hs : s.local? <;> simp [hs]
          refine ⟨s :: done, rest, first ++ others, .cons he hprogress, ?_, ?_, ?_⟩
          · rw [hlocals]
            exact List.rel_append (haccepted he) (hdeclared.imp htypes)
          · rw [List.map_append]
            exact SymbolTable.fresh_append.mpr ⟨hfresh, hkept.fresh.mp hnew⟩
          · rw [generate_of_accepted he, SymbolTable.bindVars_append]
            exact (hkept.bindVars others).trans hothers

/-- The statements of a body are checked up to the end or to the first one that fails. What that leaves
in the innermost frame are the variables that the accepted ones of them declare, and all else is as it
was before. -/
theorem generate_leaves (c : BodyContext) (t : SymbolTable) (out : Listing) (ss : List Stmt) :
    ∃ done rest vars, Progress c t out ss done rest ∧
      t.Residue (done.filterMap Stmt.local?) vars (generate c t out ss).table := by
  obtain ⟨done, rest, vars, hprogress, hdeclared, hfresh, hkept⟩ := generate_progress c t out ss
  exact ⟨done, rest, vars, hprogress, .of_kept hdeclared hfresh hkept⟩

end Body

end Coherence
