import Coherence.Session
/-!
# What compiling leaves of a symbol table

Everything that is compiled in a frame of its own closes that frame again, also when it fails. So a
function body, the members of a type and a whole machine leave the frames as they found them
(`SymbolTable.Kept`), while what runs inside one frame adds variables to it and nothing else
(`SymbolTable.Grown`). Both relations also say which marks of frames were given out and for which
types fields were found.
-/

namespace Coherence

namespace SymbolTable

/-- What `u` has over `t` besides symbols: marks of frames without owner or with this one, and field
types of types among those that were touched. -/
structure Marked (owner : Option String) (touched : TypeSymbol.Key → Prop) (t u : SymbolTable) :
    Prop where
  opened : ∃ l, u.opened = l ++ t.opened ∧ ∀ o ∈ l, o = none ∨ o = owner
  fieldTypes : ∀ k, ¬touched k → u.fieldTypes.lookup k = t.fieldTypes.lookup k

/-- No field types were touched. -/
def Untouched (_ : TypeSymbol.Key) : Prop := False

/-- `u` is `t` with further variables in the innermost frame. -/
structure Grown (owner : Option String) (touched : TypeSymbol.Key → Prop) (t u : SymbolTable) :
    Prop extends Marked owner touched t u where
  outer : u.outer = t.outer
  id : u.top.id = t.top.id
  symbols : ∃ vars : List Var,
    u.top.symbols = vars.map (fun v => (Symbol.key (.var v), .var v)) ++ t.top.symbols

/-- `u` has the frames of `t`. -/
structure Kept (owner : Option String) (touched : TypeSymbol.Key → Prop) (t u : SymbolTable) :
    Prop extends Marked owner touched t u where
  top : u.top = t.top
  outer : u.outer = t.outer

variable {owner : Option String} {touched : TypeSymbol.Key → Prop} {t u v : SymbolTable}

namespace Marked

theorem refl : Marked owner touched t t := ⟨⟨[], rfl, by simp⟩, fun _ _ => rfl⟩

theorem trans (h₁ : Marked owner touched t u) (h₂ : Marked owner touched u v) :
    Marked owner touched t v := by
  obtain ⟨l₁, e₁, o₁⟩ := h₁.opened
  obtain ⟨l₂, e₂, o₂⟩ := h₂.opened
  refine ⟨⟨l₂ ++ l₁, by rw [e₂, e₁, List.append_assoc], ?_⟩, fun k hk => ?_⟩
  · intro o ho
    rcases List.mem_append.mp ho with ho | ho
    · exact o₂ o ho
    · exact o₁ o ho
  · rw [h₂.fieldTypes k hk, h₁.fieldTypes k hk]

/-- A frame that has another owner gets the mark that it would have got before. -/
theorem count_opened (h : Marked owner touched t u) {m : String} (hm : owner ≠ some m) :
    u.opened.count (some m) = t.opened.count (some m) := by
  obtain ⟨l, e, ho⟩ := h.opened
  have hl : l.count (some m) = 0 := by
    rw [List.count_eq_zero]
    intro hmem
    rcases ho _ hmem with h | h
    · cases h
    · exact hm h.symm
  rw [e, List.count_append, hl, Nat.zero_add]

theorem count_opened_le (h : Marked owner touched t u) (o : Option String) :
    t.opened.count o ≤ u.opened.count o := by
  obtain ⟨l, e, -⟩ := h.opened
  rw [e, List.count_append]
  omega

theorem imp {touched' : TypeSymbol.Key → Prop} (h : Marked owner touched t u)
    (hk : ∀ k, touched k → touched' k) : Marked owner touched' t u :=
  ⟨h.opened, fun k hn => h.fieldTypes k fun ht => hn (hk k ht)⟩

/-- Closing a frame that was opened leaves the frames around it, whatever was declared in it. -/
theorem close (h : Marked none touched (t.push owner) u) (houter : u.outer = t.frames) :
    Kept owner touched t u.close := by
  obtain ⟨l, e, ho⟩ := h.opened
  have hclose : u.close = { u with top := t.top, outer := t.outer } := by
    simp only [SymbolTable.close, pop, houter, SymbolTable.frames]
  rw [hclose]
  refine ⟨⟨⟨l ++ [owner], by simp [e, push], ?_⟩, h.fieldTypes⟩, rfl, rfl⟩
  intro o hmem
  rcases List.mem_append.mp hmem with hmem | hmem
  · exact .inl ((ho o hmem).elim id id)
  · exact .inr (List.mem_singleton.mp hmem)

end Marked

namespace Grown

theorem refl : Grown owner touched t t := ⟨Marked.refl, rfl, rfl, [], rfl⟩

theorem trans (h₁ : Grown owner touched t u) (h₂ : Grown owner touched u v) :
    Grown owner touched t v := by
  obtain ⟨vs₁, e₁⟩ := h₁.symbols
  obtain ⟨vs₂, e₂⟩ := h₂.symbols
  refine ⟨h₁.toMarked.trans h₂.toMarked, h₂.outer.trans h₁.outer, h₂.id.trans h₁.id,
    vs₂ ++ vs₁, ?_⟩
  rw [e₂, e₁, List.map_append, List.append_assoc]

theorem bind (v : Var) : Grown owner touched t (t.bind (.var v)) :=
  ⟨⟨⟨[], rfl, by simp⟩, fun _ _ => rfl⟩, rfl, rfl, [v], rfl⟩

theorem of_declare {v : Var} (h : t.declare (.var v) = .ok u) : Grown owner touched t u := by
  obtain ⟨-, rfl⟩ := declare_eq_ok.mp h
  exact bind v

theorem close (h : Grown none touched (t.push owner) u) : Kept owner touched t u.close :=
  h.toMarked.close h.outer

/-- Types and functions are not hidden by variables. -/
theorem lookup (h : Grown owner touched t u) {kind : SymbolKind} (hk : kind ≠ .var)
    (name : String) : u.lookup name kind = t.lookup name kind := by
  obtain ⟨vars, hvars⟩ := h.symbols
  have hnone : (vars.map fun v => (Symbol.key (.var v), Symbol.var v)).lookup (name, kind) = none := by
    rw [List.lookup_eq_none_iff]
    intro e he
    obtain ⟨v, -, rfl⟩ := List.mem_map.mp he
    have hne : (name, kind) ≠ (Symbol.var v).key := fun heq => hk (congrArg Prod.snd heq)
    simpa using hne
  rw [lookup_eq_or, lookup_eq_or, h.outer, Frame.find?, Frame.find?, hvars, List.lookup_append,
    hnone, Option.none_or]

theorem findType? (h : Grown owner touched t u) (name : String) :
    u.findType? name = t.findType? name := findType?_congr (h.lookup (by simp) name)

end Grown

namespace Kept

theorem refl : Kept owner touched t t := ⟨Marked.refl, rfl, rfl⟩

theorem trans (h₁ : Kept owner touched t u) (h₂ : Kept owner touched u v) :
    Kept owner touched t v :=
  ⟨h₁.toMarked.trans h₂.toMarked, h₂.top.trans h₁.top, h₂.outer.trans h₁.outer⟩

theorem grown (h : Kept owner touched t u) : Grown owner touched t u :=
  ⟨h.toMarked, h.outer, congrArg Frame.id h.top, [], congrArg Frame.symbols h.top⟩

theorem frames (h : Kept owner touched t u) : u.frames = t.frames := by
  unfold SymbolTable.frames
  rw [h.top, h.outer]

theorem lookup (h : Kept owner touched t u) (name : String) (kind : SymbolKind) :
    u.lookup name kind = t.lookup name kind := by
  unfold SymbolTable.lookup
  rw [h.frames]

theorem imp {touched' : TypeSymbol.Key → Prop} (h : Kept owner touched t u)
    (hk : ∀ k, touched k → touched' k) : Kept owner touched' t u :=
  ⟨h.toMarked.imp hk, h.top, h.outer⟩

end Kept

end SymbolTable

open SymbolTable (Marked Grown Kept Untouched)

/-! ### Function bodies -/

section body

variable (c : BodyContext)

theorem BodyContext.grown_declareLocal {t u : SymbolTable} {type : TypeName} {ident : String}
    {init : Option Expr} {location : Location} {symbol : TypeSymbol}
    (h : c.declareLocal t type ident init location = .ok (symbol, u)) : Grown none Untouched t u := by
  simp only [BodyContext.declareLocal, bind_eq_ok] at h
  obtain ⟨_, -, _, -, _, hd, hu⟩ := h
  cases hu
  exact .of_declare hd

namespace Body

/-- The outcome of the first block of an `if`. -/
def thenOutcome (t : SymbolTable) (out : Listing) (cond : Expr) (thenBlock : List Stmt) :
    BodyOutcome :=
  (generate c t.push (out.line (thenText cond)).indent thenBlock).close

/-- The outcome of the second block of an `if`, from that of the first one. -/
def elseOutcome (first : BodyOutcome) (elseBlock : List Stmt) : BodyOutcome :=
  (generate c first.table.push (first.listing.dedent.line elseText).indent elseBlock).close

section accepted

variable {c} {t : SymbolTable} {out : Listing} {location : Location}

theorem generateOne_branch (cond : Expr) (thenBlock : List Stmt) :
    generateOne c t out (.branch cond thenBlock none location) =
      match c.checkCond t cond with
      | .error e => { table := t, listing := out, error := e }
      | .ok _ =>
        match (thenOutcome c t out cond thenBlock).error with
        | some _ => thenOutcome c t out cond thenBlock
        | none => { thenOutcome c t out cond thenBlock with
            listing := (thenOutcome c t out cond thenBlock).listing.dedent.line endText } := rfl

theorem generateOne_branchElse (cond : Expr) (thenBlock elseBlock : List Stmt) :
    generateOne c t out (.branch cond thenBlock (some elseBlock) location) =
      match c.checkCond t cond with
      | .error e => { table := t, listing := out, error := e }
      | .ok _ =>
        match (thenOutcome c t out cond thenBlock).error with
        | some _ => thenOutcome c t out cond thenBlock
        | none =>
          let second := elseOutcome c (thenOutcome c t out cond thenBlock) elseBlock
          match second.error with
          | some _ => second
          | none => { second with listing := second.listing.dedent.line endText } := rfl

theorem generate_cons (s : Stmt) (rest : List Stmt) :
    generate c t out (s :: rest) =
      match (generateOne c t out s).error with
      | some _ => generateOne c t out s
      | none => generate c (generateOne c t out s).table (generateOne c t out s).listing rest := rfl

theorem emit_accepted {line : String} {check : Except CompileError Unit}
    (h : (emit t out line check).error = none) :
    check = .ok () ∧ emit t out line check = { table := t, listing := out.line line } := by
  cases check with
  | error e => cases h
  | ok _ => exact ⟨rfl, rfl⟩

theorem declare_accepted {type : TypeName} {ident : String} {init : Option Expr}
    (h : (generateOne c t out (.declare type ident init location)).error = none) :
    ∃ symbol u, c.declareLocal t type ident init location = .ok (symbol, u) ∧
      generateOne c t out (.declare type ident init location) =
        { table := u, listing := out.line (localText symbol.cIdent ident init) } := by
  simp only [generateOne] at h ⊢
  cases hd : c.declareLocal t type ident init location with
  | error e =>
      rw [hd] at h
      cases h
  | ok p => exact ⟨p.1, p.2, rfl, rfl⟩

/-- What an accepted `if` without a second block does. -/
theorem branch_accepted {cond : Expr} {thenBlock : List Stmt}
    (h : (generateOne c t out (.branch cond thenBlock none location)).error = none) :
    c.checkCond t cond = .ok () ∧ (thenOutcome c t out cond thenBlock).error = none ∧
      generateOne c t out (.branch cond thenBlock none location) =
        { thenOutcome c t out cond thenBlock with
          listing := (thenOutcome c t out cond thenBlock).listing.dedent.line endText } := by
  rw [generateOne_branch] at h ⊢
  cases hc : c.checkCond t cond with
  | error e =>
      rw [hc] at h
      cases h
  | ok _ =>
      rw [hc] at h
      cases first : (thenOutcome c t out cond thenBlock).error with
      | some e =>
          simp only [first] at h
          cases h
      | none => exact ⟨rfl, rfl, by simp only [first]⟩

theorem branchElse_accepted {cond : Expr} {thenBlock elseBlock : List Stmt}
    (h : (generateOne c t out (.branch cond thenBlock (some elseBlock) location)).error = none) :
    c.checkCond t cond = .ok () ∧ (thenOutcome c t out cond thenBlock).error = none ∧
      (elseOutcome c (thenOutcome c t out cond thenBlock) elseBlock).error = none ∧
      generateOne c t out (.branch cond thenBlock (some elseBlock) location) =
        { elseOutcome c (thenOutcome c t out cond thenBlock) elseBlock with
          listing := (elseOutcome c (thenOutcome c t out cond thenBlock) elseBlock).listing.dedent.line
            endText } := by
  rw [generateOne_branchElse] at h ⊢
  cases hc : c.checkCond t cond with
  | error e =>
      rw [hc] at h
      cases h
  | ok _ =>
      rw [hc] at h
      cases first : (thenOutcome c t out cond thenBlock).error with
      | some e =>
          simp only [first] at h
          cases h
      | none =>
          cases second : (elseOutcome c (thenOutcome c t out cond thenBlock) elseBlock).error with
          | some e =>
              simp only [first, second] at h
              cases h
          | none => exact ⟨rfl, rfl, rfl, by simp only [second]⟩

/-- Of accepted statements the first one is accepted, and the others go on after it. -/
theorem cons_accepted {s : Stmt} {rest : List Stmt} (h : (generate c t out (s :: rest)).error = none) :
    (generateOne c t out s).error = none ∧ generate c t out (s :: rest) =
      generate c (generateOne c t out s).table (generateOne c t out s).listing rest := by
  rw [generate_cons] at h ⊢
  cases first : (generateOne c t out s).error with
  | some e =>
      simp only [first] at h
      cases h
  | none => exact ⟨rfl, rfl⟩

end accepted

theorem kept_block {t u : SymbolTable} (h : Grown none Untouched t.push u) :
    Grown none Untouched t u.close := h.close.grown

mutual

theorem grown_generateOne : ∀ (t : SymbolTable) (out : Listing) (s : Stmt),
    Grown none Untouched t (generateOne c t out s).table
  | t, out, .eval .. => by
      simp only [generateOne, table_emit]
      exact .refl
  | t, out, .ret .. => by
      simp only [generateOne, table_emit]
      exact .refl
  | t, out, .assign .. => by
      simp only [generateOne, table_emit]
      exact .refl
  | t, out, .declare type ident init location => by
      unfold generateOne
      split
      · rename_i hd
        exact c.grown_declareLocal hd
      · exact .refl
  | t, out, .branch cond thenBlock none _ => by
      have first := grown_generate t.push (out.line (thenText cond)).indent thenBlock
      unfold generateOne
      split
      · exact .refl
      · dsimp only
        split <;> exact kept_block first
  | t, out, .branch cond thenBlock (some elseBlock) _ => by
      have first := grown_generate t.push (out.line (thenText cond)).indent thenBlock
      unfold generateOne
      split
      · exact .refl
      · dsimp only
        split
        · exact kept_block first
        · refine (kept_block first).trans ?_
          split <;> exact kept_block (grown_generate _ _ elseBlock)

theorem grown_generate : ∀ (t : SymbolTable) (out : Listing) (ss : List Stmt),
    Grown none Untouched t (generate c t out ss).table
  | t, out, [] => .refl
  | t, out, s :: rest => by
      have first := grown_generateOne t out s
      unfold generate
      dsimp only
      split
      · exact first
      · exact first.trans (grown_generate _ _ rest)

end

end Body

end body

/-! ### Functions -/

namespace FuncDecl

theorem grown_bindFormals (t : SymbolTable) (formals : List Formal) :
    Grown none Untouched t (bindFormals t formals).2 := by
  induction formals generalizing t with
  | nil => exact .refl
  | cons f fs ih =>
      unfold bindFormals
      split
      · exact .refl
      · split
        · exact .refl
        · rename_i hd
          exact (Grown.of_declare hd).trans (ih _)

theorem grown_compileBody (c : BodyContext) (t : SymbolTable) (body : Option (List Stmt)) :
    Grown none Untouched t (compileBody c t body).2 := by
  cases body with
  | none => exact .refl
  | some statements =>
      have h := Body.grown_generate c t { depth := 1 } statements
      unfold compileBody Body.text
      dsimp only
      split <;> exact h

theorem grown_compileParts (c : BodyContext) (t : SymbolTable) (d : FuncDecl) :
    Grown none Untouched t (d.compileParts c t).2 := by
  have h := grown_bindFormals t d.formals
  unfold compileParts
  split
  · rename_i hb
    rw [hb] at h
    exact h
  · rename_i hb
    rw [hb] at h
    exact h.trans (grown_compileBody c _ _)

theorem kept_toFunc (s : Site) (d : FuncDecl) : Kept none Untouched s.table (d.toFunc s).2 := by
  unfold toFunc
  split
  · exact .refl
  · exact (grown_compileParts _ _ d).close

/-- What compiling a function does: it fails and leaves the frames, or the function is new to the
innermost frame or to the machine and is added there. -/
theorem compile_cases (s : Site) (d : FuncDecl) :
    ∃ u, (d.toFunc s).2 = u ∧ Kept none Untouched s.table u ∧
    ((∃ e, d.compile s = (.error e, { s with table := u }) ∧ ((d.toFunc s).1 = .error e ∨
        ∃ f, (d.toFunc s).1 = .ok f ∧ { s with table := u : Site }.addFunc f = .error e)) ∨
      ∃ f, (d.toFunc s).1 = .ok f ∧
        ((s.machine = none ∧ u.top.find? f.ident .func = none ∧
            d.compile s = (.ok f, { s with table := u.bind (.func f) })) ∨
          ∃ m m', s.machine = some m ∧ m.addFunc f = .ok m' ∧
            d.compile s = (.ok f, { table := u, machine := some m' }))) := by
  refine ⟨_, rfl, kept_toFunc s d, ?_⟩
  unfold compile
  split
  · rename_i e u h
    rw [h]
    exact .inl ⟨e, rfl, .inl rfl⟩
  · rename_i f u h
    rw [h]
    split
    · rename_i e ha
      exact .inl ⟨e, rfl, .inr ⟨f, rfl, ha⟩⟩
    · rename_i s' ha
      refine .inr ⟨f, rfl, ?_⟩
      unfold Site.addFunc at ha
      split at ha
      · rename_i m hm
        obtain ⟨m', hm', rfl⟩ := map_eq_ok.mp ha
        exact .inr ⟨m, m', hm, hm', rfl⟩
      · rename_i hm
        obtain ⟨v, hv, rfl⟩ := map_eq_ok.mp ha
        obtain ⟨hfree, rfl⟩ := SymbolTable.declare_eq_ok.mp hv
        exact .inl ⟨hm, hfree, rfl⟩

theorem toFunc_of_compile {s : Site} {d : FuncDecl} {f : Func} (h : (d.compile s).1 = .ok f) :
    (d.toFunc s).1 = .ok f := by
  obtain ⟨u, -, -, ⟨e, hc, -⟩ | ⟨g, hg, ⟨-, -, hc⟩ | ⟨_, _, -, -, hc⟩⟩⟩ := compile_cases s d <;>
    rw [hc] at h <;> cases h <;> exact hg

theorem table_compile (s : Site) (d : FuncDecl) :
    ∃ u, Kept none Untouched s.table u ∧ ((d.compile s).2.table = u ∨
      ∃ f, (d.toFunc s).1 = .ok f ∧ (d.compile s).2.table = u.bind (.func f)) := by
  obtain ⟨u, -, hk, ⟨e, hc, -⟩ | ⟨f, hf, ⟨-, -, hc⟩ | ⟨m, m', -, -, hc⟩⟩⟩ := compile_cases s d <;>
    rw [hc]
  · exact ⟨u, hk, .inl rfl⟩
  · exact ⟨u, hk, .inr ⟨f, hf, rfl⟩⟩
  · exact ⟨u, hk, .inl rfl⟩

theorem marked_compile (s : Site) (d : FuncDecl) :
    Marked none Untouched s.table (d.compile s).2.table := by
  obtain ⟨u, hk, h | ⟨f, -, h⟩⟩ := d.table_compile s <;> rw [h]
  · exact hk.toMarked
  · exact ⟨hk.opened, hk.fieldTypes⟩

end FuncDecl

/-! ### Types -/

namespace TypeDecl

variable {type : TypeSymbol}

theorem kept_resolveField {t u : SymbolTable} {position : Nat} {field : String}
    {found : FieldType} (h : t.resolveField type position field found = .ok u) :
    Kept none (· = type.key) t u := by
  unfold SymbolTable.resolveField at h
  split at h
  · cases h
  · cases h
    refine ⟨⟨⟨[], rfl, by simp⟩, fun k hk => ?_⟩, rfl, rfl⟩
    have hne : (k == type.key) = false := by simpa using hk
    simp [List.lookup_cons, hne]

theorem grown_resolveFields (t : SymbolTable) (position : Nat) (fields : List Field) :
    Grown none (· = type.key) t (resolveFields type t position fields).2 := by
  induction fields generalizing t position with
  | nil => exact .refl
  | cons f fs ih =>
      unfold resolveFields
      split
      · exact .refl
      · split
        · exact .refl
        · rename_i hr
          split
          · exact (kept_resolveField hr).grown
          · rename_i hd
            exact ((kept_resolveField hr).grown.trans (.of_declare hd)).trans (ih _ _)

theorem grown_bindValues {touched : TypeSymbol.Key → Prop} (t : SymbolTable)
    (values : List String) : Grown none touched t (bindValues type t values).2 := by
  induction values generalizing t with
  | nil => exact .refl
  | cons v vs ih =>
      unfold bindValues
      split
      · exact .refl
      · rename_i hd
        exact (Grown.of_declare hd).trans (ih _)

theorem grown_checkMembers (t : SymbolTable) :
    Grown none (· = type.key) t (checkMembers type t).2 := by
  unfold checkMembers
  split
  · exact grown_resolveFields t 0 _
  · exact grown_bindValues t _
  · exact .refl
  · exact .refl

/-- What compiling a type does: it fails, or the type is added to the machine around it if there is
one. The frame of the type's members is closed in both cases. -/
theorem compileDeclared_cases (s : Site) (type : TypeSymbol) :
    ∃ u, Kept none (· = type.key) s.table u ∧
      ((∃ e, compileDeclared s type = (.error e, { s with table := u }) ∧
          (checkMembers type s.table.push).1 = .error e) ∨
        compileDeclared s type =
          (.ok (u.define type), { s with table := u }.addType (u.define type))) := by
  have h : Kept none (· = type.key) s.table (checkMembers type s.table.push).2.close :=
    (grown_checkMembers s.table.push).close
  refine ⟨_, h, ?_⟩
  unfold compileDeclared
  cases checkMembers type s.table.push with
  | mk result inner =>
      cases result with
      | error e => exact .inl ⟨e, rfl, rfl⟩
      | ok _ => exact .inr rfl

theorem kept_compileDeclared (s : Site) (type : TypeSymbol) :
    Kept none (· = type.key) s.table (compileDeclared s type).2.table := by
  obtain ⟨u, hk, ⟨e, hc, -⟩ | hc⟩ := compileDeclared_cases s type <;> rw [hc] <;> exact hk

end TypeDecl

/-! ### Registration -/

/-- The registration of a type was tried. The type was declared in this frame, or its name was
taken. -/
def Pending.SettledIn (machine : Option String) (home : FrameId) : Pending → Prop
  | .type _ .pending => False
  | .type d (.declared symbol) => symbol = { d.symbol machine with home }
  | .type d (.rejected e) => e = .duplicate .type d.ident d.location
  | .func _ => True
  | .machine _ => True

namespace Decl

variable (machine : Option String)

/-- Registering a type adds to the innermost frame at most. -/
theorem predeclare_frame (t : SymbolTable) (d : Decl) :
    (d.predeclare t machine).1.outer = t.outer ∧ (d.predeclare t machine).1.top.id = t.top.id ∧
      (d.predeclare t machine).1.opened = t.opened ∧
      (d.predeclare t machine).1.fieldTypes = t.fieldTypes := by
  cases d with
  | type d =>
      simp only [predeclare, TypeDecl.predeclare]
      split
      · rename_i h
        obtain ⟨-, rfl⟩ := SymbolTable.declare_eq_ok.mp h
        exact ⟨rfl, rfl, rfl, rfl⟩
      · exact ⟨rfl, rfl, rfl, rfl⟩
  | func d => exact ⟨rfl, rfl, rfl, rfl⟩
  | machine d => exact ⟨rfl, rfl, rfl, rfl⟩

theorem predeclareAll_frame (t : SymbolTable) (ds : List Decl) :
    (predeclareAll t machine ds).1.outer = t.outer ∧
      (predeclareAll t machine ds).1.top.id = t.top.id ∧
      (predeclareAll t machine ds).1.opened = t.opened ∧
      (predeclareAll t machine ds).1.fieldTypes = t.fieldTypes := by
  induction ds generalizing t with
  | nil => exact ⟨rfl, rfl, rfl, rfl⟩
  | cons d ds ih =>
      obtain ⟨o₁, i₁, p₁, f₁⟩ := predeclare_frame machine t d
      obtain ⟨o₂, i₂, p₂, f₂⟩ := ih (d.predeclare t machine).1
      exact ⟨o₂.trans o₁, i₂.trans i₁, p₂.trans p₁, f₂.trans f₁⟩

theorem decl_predeclare (t : SymbolTable) (d : Decl) : (d.predeclare t machine).2.decl = d := by
  cases d <;> rfl

theorem map_decl_predeclareAll (t : SymbolTable) (ds : List Decl) :
    (predeclareAll t machine ds).2.map Pending.decl = ds := by
  induction ds generalizing t with
  | nil => rfl
  | cons d ds ih =>
      simp only [predeclareAll, List.map_cons, decl_predeclare, ih]

theorem settledIn_predeclare (t : SymbolTable) (d : Decl) :
    (d.predeclare t machine).2.SettledIn machine t.top.id := by
  cases d with
  | type d =>
      simp only [predeclare, TypeDecl.predeclare]
      split
      · rfl
      · rename_i hd
        unfold SymbolTable.declare at hd
        split at hd <;> cases hd
        rfl
  | func d => trivial
  | machine d => trivial

theorem settledIn_predeclareAll (t : SymbolTable) (ds : List Decl) :
    ∀ p ∈ (predeclareAll t machine ds).2, p.SettledIn machine t.top.id := by
  induction ds generalizing t with
  | nil => simp [predeclareAll]
  | cons d ds ih =>
      intro p hp
      rcases List.mem_cons.mp hp with rfl | hp
      · exact settledIn_predeclare machine t d
      · rw [← (predeclare_frame machine t d).2.1]
        exact ih _ p hp

end Decl

/-! ### Members and machines -/

/-- What a member leaves of the site inside a machine: the frames, and a machine of the same name. -/
structure Site.Inside (home : FrameId) (s s' : Site) : Prop where
  table : Kept none (fun k => k.home = home) s.table s'.table
  machine : ∀ m, s.machine = some m → ∃ m', s'.machine = some m' ∧ m'.ident = m.ident

namespace Site.Inside

variable {home : FrameId} {s s' s'' : Site}

theorem refl : Inside home s s := ⟨.refl, fun m hm => ⟨m, hm, rfl⟩⟩

theorem trans (h₁ : Inside home s s') (h₂ : Inside home s' s'') : Inside home s s'' := by
  refine ⟨h₁.table.trans h₂.table, fun m hm => ?_⟩
  obtain ⟨m', hm', e₁⟩ := h₁.machine m hm
  obtain ⟨m'', hm'', e₂⟩ := h₂.machine m' hm'
  exact ⟨m'', hm'', e₂.trans e₁⟩

end Site.Inside

namespace StateMachine

theorem ident_addFunc {m m' : StateMachine} {f : Func} (h : m.addFunc f = .ok m') :
    m'.ident = m.ident := by
  obtain ⟨roster, -, rfl⟩ := addFunc_eq_ok.mp h
  rfl

end StateMachine

namespace Pending

variable {owner : Option String} {home : FrameId}

theorem inside_compileMember {s : Site} {m : StateMachine} (hm : s.machine = some m) (p : Pending)
    (hp : p.SettledIn owner home) : s.Inside home (p.compileMember s).2 := by
  cases p with
  | func d =>
      show s.Inside home (d.compile s).2
      obtain ⟨u, -, hk, ⟨e, hc, -⟩ | ⟨f, -, ⟨hnone, -⟩ | ⟨m₀, m', hm₀, ha, hc⟩⟩⟩ :=
        FuncDecl.compile_cases s d
      · rw [hc]
        exact ⟨hk.imp fun _ => False.elim, fun n hn => ⟨n, hn, rfl⟩⟩
      · rw [hm] at hnone
        cases hnone
      · rw [hc]
        refine ⟨hk.imp fun _ => False.elim, fun n hn => ⟨m', rfl, ?_⟩⟩
        cases hm₀.symm.trans hn
        exact StateMachine.ident_addFunc ha
  | type d state =>
      cases state with
      | pending => exact hp.elim
      | rejected e => exact .refl
      | declared type =>
          show s.Inside home (TypeDecl.compileDeclared s type).2
          have hhome : type.key.home = home := congrArg TypeSymbol.home hp
          obtain ⟨u, hk, ⟨e, hc, -⟩ | hc⟩ := TypeDecl.compileDeclared_cases s type
          · rw [hc]
            exact ⟨hk.imp fun k hkey => by rw [hkey, hhome], fun n hn => ⟨n, hn, rfl⟩⟩
          · rw [hc]
            refine ⟨hk.imp fun k hkey => by rw [hkey, hhome], fun n hn => ?_⟩
            simp [Site.addType, hn, StateMachine.addType]
  | machine d => exact .refl

end Pending

namespace MemberRun

variable {owner : Option String} {home : FrameId}

theorem inside_attempt {r : MemberRun} {m : StateMachine} (hm : r.stage.site.machine = some m)
    (p : Pending) (hp : p.SettledIn owner home) :
    r.stage.site.Inside home (r.attempt p).2.site := by
  unfold attempt Stage.attempt
  split
  · exact .refl
  · exact p.inside_compileMember hm hp

theorem inside_step {r : MemberRun} {m : StateMachine} (hm : r.stage.site.machine = some m)
    (p : Pending) (hp : p.SettledIn owner home) :
    r.stage.site.Inside home (r.step p).2.stage.site := by
  have h := inside_attempt hm p hp
  unfold step
  split
  · rename_i ha
    rw [ha] at h
    exact h
  · rename_i ha
    rw [ha] at h
    split <;> exact h

theorem inside_steps {r : MemberRun} {m : StateMachine} (hm : r.stage.site.machine = some m)
    (ps : List Pending) (hps : ∀ p ∈ ps, p.SettledIn owner home) :
    r.stage.site.Inside home (r.steps ps).2.stage.site := by
  induction ps generalizing r m with
  | nil => exact .refl
  | cons p ps ih =>
      have hstep := inside_step hm p (hps p List.mem_cons_self)
      unfold steps
      split
      · rename_i hs
        rw [hs] at hstep
        exact hstep
      · rename_i hs
        rw [hs] at hstep
        obtain ⟨m', hm', -⟩ := hstep.machine m hm
        exact hstep.trans (ih hm' fun q hq => hps q (List.mem_cons_of_mem p hq))

end MemberRun

namespace MachineDecl

/-- The frame that a machine's members get. -/
def home (t : SymbolTable) (d : MachineDecl Decl) : FrameId :=
  ⟨some d.ident, t.opened.count (some d.ident)⟩

/-- The frame of a machine's members with their types, and the members as they wait. -/
def inner (t : SymbolTable) (d : MachineDecl Decl) : SymbolTable × List Pending :=
  Decl.predeclareAll (t.push d.ident) (some d.ident) d.members

def run (t : SymbolTable) (d : MachineDecl Decl) : Option CompileError × MemberRun :=
  (d.start (d.inner t).1).steps (d.inner t).2

/-- The members stay in the frame that was opened for them, and touch the types declared in it only. -/
theorem members_run (t : SymbolTable) (d : MachineDecl Decl) :
    Marked none (fun k => k.home = d.home t) (t.push d.ident) (d.run t).2.stage.site.table ∧
      (d.run t).2.stage.site.table.outer = t.frames ∧
      ∃ m, (d.run t).2.stage.site.machine = some m ∧ m.ident = d.ident := by
  obtain ⟨houter, hid, hopened, hfields⟩ :=
    Decl.predeclareAll_frame (some d.ident) (t.push d.ident) d.members
  have hin := MemberRun.inside_steps (r := d.start (d.inner t).1) rfl _
    (Decl.settledIn_predeclareAll (some d.ident) (t.push d.ident) d.members)
  obtain ⟨m, hm, hident⟩ := hin.machine _ rfl
  refine ⟨Marked.trans ⟨⟨[], hopened, by simp⟩, fun k _ => by rw [hfields]⟩ hin.table.toMarked,
    hin.table.outer.trans houter, m, hm, hident⟩

/-- What a machine compiles into is found by the run over its members. -/
theorem compile_eq_ok {t : SymbolTable} {d : MachineDecl Decl} {c : CompiledMachine} :
    (d.compile t).1 = .ok c ↔ ∃ r, d.run t = (none, r) ∧
      r.stage.site.machine = some c.machine ∧ r.errors = c.errors := by
  obtain ⟨-, -, m, hm, -⟩ := members_run t d
  cases hrun : d.run t with
  | mk fatal r =>
      rw [hrun] at hm
      unfold compile
      unfold run inner at hrun
      dsimp only at hm hrun ⊢
      rw [hrun]
      cases fatal with
      | some e => simp
      | none =>
          dsimp only
          rw [hm]
          constructor
          · intro h
            cases h
            exact ⟨r, rfl, hm, rfl⟩
          · rintro ⟨_, ⟨⟩, hm', herrors⟩
            cases hm.symm.trans hm'
            rw [herrors]
            rfl

theorem table_compile (t : SymbolTable) (d : MachineDecl Decl) :
    (d.compile t).2 = (d.run t).2.stage.site.table.close := rfl

theorem kept_compile (t : SymbolTable) (d : MachineDecl Decl) :
    Kept (some d.ident) (fun k => k.home = d.home t) t (d.compile t).2 := by
  obtain ⟨hmarked, houter, -⟩ := members_run t d
  exact hmarked.close houter

/-- A machine opens one frame in its name. -/
theorem count_opened_compile (t : SymbolTable) (d : MachineDecl Decl) :
    (d.compile t).2.opened.count (some d.ident) = t.opened.count (some d.ident) + 1 := by
  obtain ⟨hmarked, houter, -⟩ := members_run t d
  have hclose : (d.compile t).2.opened = (d.run t).2.stage.site.table.opened := by
    rw [table_compile]
    simp only [SymbolTable.close, SymbolTable.pop, houter, SymbolTable.frames]
  rw [hclose, hmarked.count_opened (by simp)]
  exact List.count_cons_self

end MachineDecl

end Coherence
