import Coherence.Proofs.Calls
import Coherence.Proofs.Globals
import Coherence.Proofs.Typing
/-!
# Builtin types in bodies

Constants, operators, conditions and functions without result have types that are found by name: `int`,
`bool`, `string` and `void`. At top level these names mean the builtin types, whatever a program declares
(`Session.builtins_stand`). A machine may declare types of these names among its members, and its functions
then mean those (`MachineDecl.meaning`).
-/

namespace Coherence

/-! ### Conditions -/

namespace Body

mutual

/-- The conditions in a statement as the checker meets them. -/
def conditionsOne (c : BodyContext) (t : SymbolTable) (out : Listing) : Stmt → List Checked
  | .branch cond thenBlock none _ =>
    { expr := cond, table := t } :: conditions c t.push (out.line (thenText cond)).indent thenBlock
  | .branch cond thenBlock (some elseBlock) _ =>
    let first := thenOutcome c t out cond thenBlock
    { expr := cond, table := t } :: (conditions c t.push (out.line (thenText cond)).indent thenBlock ++
      conditions c first.table.push (first.listing.dedent.line elseText).indent elseBlock)
  | _ => []

/-- The conditions in statements as the checker meets them. -/
def conditions (c : BodyContext) (t : SymbolTable) (out : Listing) : List Stmt → List Checked
  | [] => []
  | s :: rest =>
    let first := generateOne c t out s
    conditionsOne c t out s ++ conditions c first.table first.listing rest

end

variable (c : BodyContext)

mutual

theorem condition_of_generateOne : ∀ (t : SymbolTable) (out : Listing) (s : Stmt),
    (generateOne c t out s).error = none → ∀ k ∈ conditionsOne c t out s,
      k ∈ checkedOne c t out s ∧ c.checkCond k.table k.expr = .ok ()
  | t, out, .eval .., _, k, hk => by cases hk
  | t, out, .ret .., _, k, hk => by cases hk
  | t, out, .assign .., _, k, hk => by cases hk
  | t, out, .declare .., _, k, hk => by cases hk
  | t, out, .branch cond thenBlock none location, h, k, hk => by
      obtain ⟨hc, he, -⟩ := branch_accepted h
      rcases List.mem_cons.mp hk with rfl | hk
      · exact ⟨List.mem_cons_self, hc⟩
      · obtain ⟨hmem, hok⟩ := condition_of_generate _ _ thenBlock he k hk
        exact ⟨List.mem_cons_of_mem _ hmem, hok⟩
  | t, out, .branch cond thenBlock (some elseBlock) location, h, k, hk => by
      obtain ⟨hc, he, he', -⟩ := branchElse_accepted h
      rcases List.mem_cons.mp hk with rfl | hk
      · exact ⟨List.mem_cons_self, hc⟩
      · rcases List.mem_append.mp hk with hk | hk
        · obtain ⟨hmem, hok⟩ := condition_of_generate _ _ thenBlock he k hk
          exact ⟨List.mem_cons_of_mem _ (List.mem_append_left _ hmem), hok⟩
        · obtain ⟨hmem, hok⟩ := condition_of_generate _ _ elseBlock he' k hk
          exact ⟨List.mem_cons_of_mem _ (List.mem_append_right _ hmem), hok⟩

theorem condition_of_generate : ∀ (t : SymbolTable) (out : Listing) (ss : List Stmt),
    (generate c t out ss).error = none → ∀ k ∈ conditions c t out ss,
      k ∈ checked c t out ss ∧ c.checkCond k.table k.expr = .ok ()
  | _, _, [], _, k, hk => by cases hk
  | t, out, s :: rest, h, k, hk => by
      obtain ⟨he, heq⟩ := cons_accepted h
      rw [heq] at h
      rcases List.mem_append.mp hk with hk | hk
      · obtain ⟨hmem, hok⟩ := condition_of_generateOne t out s he k hk
        exact ⟨List.mem_append_left _ hmem, hok⟩
      · obtain ⟨hmem, hok⟩ := condition_of_generate _ _ rest h k hk
        exact ⟨List.mem_append_right _ hmem, hok⟩

end

end Body

namespace FuncDecl

/-- The conditions in the body of a function with this result, as the checker meets them. -/
def conditions (s : Site) (returnType : TypeSymbol) (d : FuncDecl) : List Checked :=
  Body.conditions (bodyContext s returnType) (d.bodyTable s) { depth := 1 } (d.body?.getD [])

theorem condition_of_toFunc {s : Site} {d : FuncDecl} {f : Func} (h : (d.toFunc s).1 = .ok f) :
    ∀ k ∈ d.conditions s f.returnType, k ∈ d.checked s f.returnType ∧
      (bodyContext s f.returnType).checkCond k.table k.expr = .ok () := by
  intro k hk
  unfold conditions checked at *
  cases hb : d.body? with
  | none =>
      rw [hb] at hk
      cases hk
  | some statements =>
      rw [hb] at hk
      obtain ⟨-, hbody, -⟩ := generated_toFunc h hb
      exact Body.condition_of_generate _ _ _ statements hbody k hk

/-! ### Types of constants, operators and results -/

/-- The names of types that the checker looks up by itself, and that of the type without values. -/
def standardNames : List String := [intName, boolName, stringName, TypeSymbol.voidName]

/-- In the body of a function constants, operators and conditions have the types that their names mean, and
so has the result if it is written `void`. Results are returned unless that type is without values. -/
structure Standard (meaning : String → Option TypeSymbol) (s : Site) (d : FuncDecl) (f : Func) :
    Prop where
  constants : ∀ k ∈ d.checked s f.returnType, ∀ value location,
    Expr.literal value location ∈ k.expr.parts → ∃ τ, meaning value.typeName = some τ ∧
      (Expr.literal value location).infer k.table s.machine = .ok τ
  /-- Of arithmetic and of the logical operators, operands and result have the type in question. -/
  operators : ∀ k ∈ d.checked s f.returnType, ∀ lhs op rhs location,
    Expr.binary lhs op rhs location ∈ k.expr.parts → ∀ name, op.operandName = some name →
      ∃ τ left right, meaning name = some τ ∧ lhs.infer k.table s.machine = .ok left ∧
        rhs.infer k.table s.machine = .ok right ∧ left.same τ = true ∧ right.same τ = true ∧
        (Expr.binary lhs op rhs location).infer k.table s.machine = .ok τ
  comparisons : ∀ k ∈ d.checked s f.returnType, ∀ lhs op rhs location,
    Expr.binary lhs op rhs location ∈ k.expr.parts → op.operandName = none →
      ∃ τ, meaning boolName = some τ ∧
        (Expr.binary lhs op rhs location).infer k.table s.machine = .ok τ
  conditions : ∀ k ∈ d.conditions s f.returnType, ∃ τ found, meaning boolName = some τ ∧
    k.expr.infer k.table s.machine = .ok found ∧ found.same τ = true
  result : d.returnType.ident = TypeSymbol.voidName →
    meaning TypeSymbol.voidName = some f.returnType
  returns : ∀ t location,
    ((bodyContext s f.returnType).checkReturn t location none = .ok () ↔
      f.returnType.isVoid = true) ∧
    ∀ value, (bodyContext s f.returnType).checkReturn t location (some value) = .ok () →
      f.returnType.isVoid = false

section standard

variable {meaning : String → Option TypeSymbol} {s : Site} {d : FuncDecl} {f : Func}

theorem checkReturn_void (c : BodyContext) (t : SymbolTable) (location : Location) :
    (c.checkReturn t location none = .ok () ↔ c.returnType.isVoid = true) ∧
      ∀ value, c.checkReturn t location (some value) = .ok () → c.returnType.isVoid = false := by
  constructor
  · unfold BodyContext.checkReturn
    by_cases hv : c.returnType.isVoid = true <;> simp [hv]
  · intro value h
    obtain ⟨found, -, h⟩ := bind_eq_ok.mp h
    by_cases hv : c.returnType.isVoid = true
    · rw [if_pos hv] at h
      cases h
    · exact Bool.eq_false_iff.mpr hv

/-- If the names lead to these types at the site of a function, they do so everywhere in its body. -/
theorem standard_toFunc (h : (d.toFunc s).1 = .ok f)
    (hmeaning : ∀ name ∈ standardNames, ∃ τ, meaning name = some τ ∧ s.table.findType? name = some τ) :
    d.Standard meaning s f := by
  have hresolve : ∀ k ∈ d.checked s f.returnType, ∀ name ∈ standardNames, ∀ location τ,
      k.table.resolveType name location = .ok τ → meaning name = some τ := by
    intro k hk name hname location τ hτ
    obtain ⟨σ, hσ, hfound⟩ := hmeaning name hname
    have hsite : k.table.findType? name = s.table.findType? name :=
      SymbolTable.findType?_congr (lookup_checked hk (by simp) name)
    rw [← hsite, SymbolTable.resolveType_ok_iff.mp hτ] at hfound
    rw [hσ, hfound]
  have hbinary : ∀ k ∈ d.checked s f.returnType, ∀ lhs op rhs location,
      Expr.binary lhs op rhs location ∈ k.expr.parts → ∃ left right τ,
        lhs.infer k.table s.machine = .ok left ∧ rhs.infer k.table s.machine = .ok right ∧
        left.key = right.key ∧ op.result k.table left location = .ok τ ∧
        (Expr.binary lhs op rhs location).infer k.table s.machine = .ok τ := by
    intro k hk lhs op rhs location hp
    obtain ⟨σ, hσ⟩ := inferred_of_toFunc h k hk
    obtain ⟨τ, hτ⟩ := Expr.infer_parts _ _ _ hσ _ hp
    have hinfer := hτ
    simp only [Expr.infer, bind_eq_ok] at hinfer
    obtain ⟨left, hl, right, hr, _, hkey, hresult⟩ := hinfer
    exact ⟨left, right, τ, hl, hr, expectType_eq_ok.mp hkey, hresult, hτ⟩
  constructor
  case constants =>
    intro k hk value location hp
    obtain ⟨σ, hσ⟩ := inferred_of_toFunc h k hk
    obtain ⟨τ, hτ⟩ := Expr.infer_parts _ _ _ hσ _ hp
    have hname : value.typeName ∈ standardNames := by
      cases value <;> simp [Literal.typeName, standardNames]
    exact ⟨τ, hresolve k hk _ hname location τ hτ, hτ⟩
  case operators =>
    intro k hk lhs op rhs location hp name hop
    obtain ⟨left, right, τ, hl, hr, hkey, hresult, hτ⟩ := hbinary k hk lhs op rhs location hp
    unfold BinaryOp.result at hresult
    rw [hop] at hresult
    simp only [bind_eq_ok, expectType_eq_ok] at hresult
    obtain ⟨type, htype, _, hoperand, hpure⟩ := hresult
    cases hpure
    have hname : name ∈ standardNames := by
      cases op <;> cases hop <;> simp [standardNames]
    exact ⟨τ, left, right, hresolve k hk name hname location τ htype, hl, hr,
      decide_eq_true hoperand.symm, decide_eq_true (hkey.symm.trans hoperand.symm), hτ⟩
  case comparisons =>
    intro k hk lhs op rhs location hp hop
    obtain ⟨left, right, τ, -, -, -, hresult, hτ⟩ := hbinary k hk lhs op rhs location hp
    unfold BinaryOp.result at hresult
    rw [hop] at hresult
    exact ⟨τ, hresolve k hk boolName (by simp [standardNames]) location τ hresult, hτ⟩
  case conditions =>
    intro k hk
    obtain ⟨hmem, hcheck⟩ := condition_of_toFunc h k hk
    simp only [BodyContext.checkCond, bind_eq_ok, expectType_eq_ok] at hcheck
    obtain ⟨found, hfound, bool, hbool, hkey⟩ := hcheck
    exact ⟨bool, found, hresolve k hmem boolName (by simp [standardNames]) _ bool hbool, hfound,
      decide_eq_true hkey.symm⟩
  case result =>
    intro hvoid
    obtain ⟨τ, hτ, hfound⟩ := hmeaning TypeSymbol.voidName (by simp [standardNames])
    have hreturn := (resolved_toFunc h).returnType
    rw [hvoid, hfound] at hreturn
    rw [hτ, hreturn]
  case returns => exact fun t location => checkReturn_void _ t location

end standard

end FuncDecl

/-! ### Types of a machine -/

theorem SymbolTable.findType?_of_top {t : SymbolTable} {name : String} {τ : TypeSymbol}
    (h : t.top.find? name .type = some (.type τ)) : t.findType? name = some τ := by
  rw [findType?_eq_some, lookup_eq_or, h, Option.some_or]

theorem Decl.predeclare_of_bound {machine : Option String} {t : SymbolTable} {d : TypeDecl} {s : Symbol}
    (h : t.top.find? d.ident .type = some s) : ((Decl.type d).predeclare t machine).1 = t := by
  simp only [predeclare, TypeDecl.predeclare]
  split
  · rename_i hd
    obtain ⟨hfree, -⟩ := SymbolTable.declare_eq_ok.mp hd
    exact absurd (h.symm.trans hfree) (Option.some_ne_none s)
  · rfl

/-- Where a name is free, a declaration registers its type of this name, or leaves the name as it was. -/
theorem Decl.predeclare_name (machine : Option String) {t : SymbolTable} {name : String}
    (hfree : t.top.find? name .type = none) (d : Decl) :
    (∃ σ, d.symbol? machine t.top.id = some σ ∧ σ.ident = name ∧
      (d.predeclare t machine).1.top.find? name .type = some (.type σ)) ∨
    ((∀ σ, d.symbol? machine t.top.id = some σ → σ.ident ≠ name) ∧
      (d.predeclare t machine).1.top.find? name .type = none ∧
      (d.predeclare t machine).1.findType? name = t.findType? name) := by
  cases d with
  | func d => exact .inr ⟨by rintro _ ⟨⟩, hfree, rfl⟩
  | machine d => exact .inr ⟨by rintro _ ⟨⟩, hfree, rfl⟩
  | type d =>
      by_cases hname : d.ident = name
      · subst hname
        rw [predeclare_type machine hfree]
        refine .inl ⟨_, rfl, rfl, ?_⟩
        rw [SymbolTable.find?_bind]
        exact if_pos rfl
      · have hother : ∀ σ, (Decl.type d).symbol? machine t.top.id = some σ → σ.ident ≠ name := by
          rintro _ ⟨⟩
          exact hname
        refine .inr ⟨hother, ?_⟩
        cases hbound : t.top.find? d.ident .type with
        | some s =>
            rw [predeclare_of_bound hbound]
            exact ⟨hfree, rfl⟩
        | none =>
            rw [predeclare_type machine hbound]
            constructor
            · rw [SymbolTable.find?_bind, if_neg fun heq => hname (congrArg Prod.fst heq).symm, hfree]
            · rw [SymbolTable.findType?_bind_type]
              exact if_neg hname

/-- Of types of one name the first one is registered, if the innermost frame has none yet. -/
theorem Decl.findType?_predeclareAll {machine : Option String} {t : SymbolTable} {name : String}
    (hfree : t.top.find? name .type = none) (ds : List Decl) :
    (predeclareAll t machine ds).1.findType? name =
      ((ds.filterMap (symbol? machine t.top.id)).find? fun τ => τ.ident = name).or
        (t.findType? name) := by
  induction ds generalizing t with
  | nil => rfl
  | cons d ds ih =>
      have hid := (predeclare_frame machine t d).2.1
      rw [predeclareAll_cons, symbols_cons]
      rcases predeclare_name machine hfree d with ⟨σ, hσ, hname, hbound⟩ | ⟨hother, hfree', hsame⟩
      · rw [hσ, Option.toList_some, List.singleton_append,
          List.find?_cons_of_pos (by simpa using hname), Option.some_or]
        exact SymbolTable.findType?_of_top (find?_predeclareAll machine ds hbound)
      · have hnone : ((d.symbol? machine t.top.id).toList.find? fun τ => τ.ident = name) = none := by
          rw [List.find?_eq_none]
          intro σ hσ heq
          exact hother σ (Option.mem_toList.mp hσ) (of_decide_eq_true heq)
        rw [List.find?_append, hnone, Option.none_or, ← hsame, ← hid]
        exact ih hfree'

theorem Config.machine_builtin? (config : Config) {name : String} {τ : TypeSymbol}
    (h : config.builtin? name = some τ) : τ.machine = none := by
  unfold builtin? at h
  split at h
  · cases h
    rfl
  · obtain ⟨b, -, rfl⟩ := Option.map_eq_some_iff.mp h
    rfl

namespace MachineDecl

/-- The type of this name that a machine declares among its members, where its frame is opened around
this table: the first one of the name. -/
def ownType? (t : SymbolTable) (d : MachineDecl Decl) (name : String) : Option TypeSymbol :=
  (d.members.filterMap (Decl.symbol? (some d.ident) (t.push d.ident).top.id)).find? fun τ =>
    τ.ident = name

/-- What the name of a builtin type means inside a machine: a type of the machine if it declares one of
the name. -/
def meaning (config : Config) (t : SymbolTable) (d : MachineDecl Decl) (name : String) :
    Option TypeSymbol :=
  (d.ownType? t name).or (config.builtin? name)

theorem findType?_inner_eq_or (t : SymbolTable) (d : MachineDecl Decl) (name : String) :
    (d.inner t).1.findType? name = (d.ownType? t name).or (t.findType? name) :=
  Decl.findType?_predeclareAll (t := t.push d.ident) rfl d.members

/-- A machine changes what a name means exactly if it declares a type of that name. -/
theorem meaning_eq_builtin_iff {config : Config} {t : SymbolTable} {d : MachineDecl Decl} {name : String} :
    d.meaning config t name = config.builtin? name ↔ ∀ τ, .type τ ∈ d.members → τ.ident ≠ name := by
  unfold meaning
  cases hown : d.ownType? t name with
  | none =>
      simp only [Option.none_or, true_iff]
      rintro τ hτ rfl
      have hall := List.find?_eq_none.mp hown
      exact hall _ (List.mem_filterMap.mpr ⟨.type τ, hτ, rfl⟩) (decide_eq_true rfl)
  | some σ =>
      obtain ⟨member, hmember, hsymbol⟩ := List.mem_filterMap.mp (List.mem_of_find?_eq_some hown)
      have hname : σ.ident = name := of_decide_eq_true
        (List.find?_some (p := fun τ : TypeSymbol => τ.ident = name) hown)
      cases member with
      | type τ =>
          cases hsymbol
          rw [Option.some_or]
          constructor
          · intro h
            -- A builtin type belongs to no machine.
            have hmachine := config.machine_builtin? h.symm
            cases hmachine
          · intro h
            exact absurd hname (h τ hmember)
      | func _ => cases hsymbol
      | machine _ => cases hsymbol

end MachineDecl

/-! ### Sessions -/

namespace Session

variable {config : Config} {s : Session} {ds : List Decl} {w : Turn}

theorem Reached.globals (h : Reached config s) :
    ∃ outputs, s.Globals config outputs := by
  induction h with
  | start hs => exact ⟨[], globals_start hs⟩
  | compile hreached hc ih =>
      obtain ⟨outputs, hglobals⟩ := ih
      exact ⟨_, hglobals.compile hreached.sound hc⟩

/-- At all turns of a list the names of builtin types mean the builtin types. -/
theorem builtins_stand (hs : Reached config s) (hw : w ∈ s.turns ds) {name : String} {τ : TypeSymbol}
    (hτ : config.builtin? name = some τ) : w.table.findType? name = some τ := by
  obtain ⟨outputs, hglobals⟩ := hs.globals
  have hbound : τ.ident = name ∧ τ ∈ TypeSymbol.void :: config.types.map fun b =>
      TypeSymbol.builtin b.ident b.cIdent := by
    unfold Config.builtin? at hτ
    split at hτ
    · rename_i hvoid
      cases hτ
      exact ⟨hvoid.symm, List.mem_cons_self⟩
    · obtain ⟨b, hb, rfl⟩ := Option.map_eq_some_iff.mp hτ
      refine ⟨of_decide_eq_true (List.find?_some (p := fun b : BuiltinType => b.ident = name) hb), ?_⟩
      exact List.mem_cons_of_mem _ (List.mem_map_of_mem (List.mem_of_find?_eq_some hb))
  obtain ⟨rfl, hmem⟩ := hbound
  rw [(resolved_turns hs.sound ds w hw).2]
  exact SymbolTable.findType?_of_top
    ((Decl.extends_predeclareAll none s.table ds).find? hglobals.distinct (hglobals.builtins τ hmem))

/-- Whatever a program declares, the constants, operators and conditions in the bodies of free-standing
functions have the builtin types, and `void` is the builtin type without values, so that a function with
this result accepts a `return` without a value and none with one. In the member functions of a machine this
is so of each of the names that the machine declares no type of; for the others it is the machine's type
that takes the builtin one's place. -/
theorem builtins_in_bodies (hs : Reached config s)
    (hconfig : ∀ name ∈ [intName, boolName, stringName], (config.builtin? name).isSome = true)
    (hw : w ∈ s.turns ds) :
    (∀ fd f, w.decl = .func fd → w.result = .ok (.func f) →
      fd.Standard config.builtin? { table := w.table } f) ∧
    ∀ d, w.decl = .machine d →
      (∀ name, d.meaning config w.table name = config.builtin? name ↔
        ∀ τ, .type τ ∈ d.members → τ.ident ≠ name) ∧
      ∀ before u after, d.turns w.table = before ++ u :: after →
        ∀ fd f, u.decl = .func fd → u.result = .ok (.func f) →
          ∃ m : StateMachine, m.functions = (Turn.outputs before).functions ∧
            fd.Standard (d.meaning config w.table) { table := u.table, machine := some m } f := by
  obtain ⟨-, htables, hanswers, -⟩ := turns_spec hs.sound ds
  have hstandard : ∀ name ∈ FuncDecl.standardNames, ∃ τ, config.builtin? name = some τ := by
    intro name hname
    by_cases hvoid : name = TypeSymbol.voidName
    · exact ⟨.void, if_pos hvoid⟩
    · refine Option.isSome_iff_exists.mp (hconfig name ?_)
      simpa [FuncDecl.standardNames, hvoid] using hname
  refine ⟨fun fd f hfd hf => ?_, fun d hd => ⟨fun name => MachineDecl.meaning_eq_builtin_iff, ?_⟩⟩
  · have hanswer := hanswers w hw _ hf
    rw [hfd] at hanswer
    obtain ⟨m, hm, htoFunc⟩ := hanswer
    obtain rfl := Option.map_eq_none_iff.mp hm
    refine FuncDecl.standard_toFunc htoFunc fun name hname => ?_
    obtain ⟨τ, hτ⟩ := hstandard name hname
    exact ⟨τ, hτ, builtins_stand hs hw hτ⟩
  · intro before u after hu fd f hfd hf
    obtain ⟨m, -, hgains, htoFunc, -⟩ := MachineDecl.turn_func (htables w hw) hu hfd hf
    have hinner : u.table.findType? = (d.inner w.table).1.findType? :=
      (d.resolved_turns (htables w hw) u (by simp [hu])).2
    refine ⟨m, hgains.functions, FuncDecl.standard_toFunc htoFunc fun name hname => ?_⟩
    obtain ⟨τ, hτ⟩ := hstandard name hname
    rw [hinner, MachineDecl.findType?_inner_eq_or, builtins_stand hs hw hτ]
    unfold MachineDecl.meaning
    rw [hτ]
    cases d.ownType? w.table name with
    | none => exact ⟨τ, rfl, rfl⟩
    | some σ => exact ⟨σ, rfl, rfl⟩

/-- A function `int one()` that returns the constant. -/
def one : FuncDecl where
  returnType := { ident := "int" }
  ident := "one"
  statements := some [.ret (some (.literal (.int 1) {})) {}]

/-- A machine with this function and a structure `int`. -/
def ownInt : MachineDecl Decl where
  ident := "L1"
  members := [.func one, .type { ident := "int", body := .record [] }]

/-- The function compiles both outside of the machine and in it. In the machine the constant has the type
of the structure. -/
theorem ownInt_turns : ∃ s₀ w w' c u rest f g τ int, Session.start .prelude = .ok s₀ ∧
    w ∈ s₀.turns [.func one, .machine ownInt] ∧ w.decl = .func one ∧ w.result = .ok (.func f) ∧
    w' ∈ s₀.turns [.func one, .machine ownInt] ∧ w'.decl = .machine ownInt ∧
    w'.result = .ok (.machine c) ∧ c.errors = [] ∧ ownInt.turns w'.table = u :: rest ∧
    u.decl = .func one ∧ u.result = .ok (.func g) ∧
    g.definition = some "L1_int\nL1_Controller::one()\n\x7b\n    return 1;\n\x7d\n" ∧
    (Expr.literal (.int 1) {}).infer
      (one.bodyTable { table := u.table, machine := some ownInt.initial }) (some ownInt.initial) = .ok τ ∧
    Config.prelude.builtin? intName = some int ∧ τ.same int = false := by
  have hrun : ((Session.start .prelude).toOption.bind fun s =>
      (s.turns [.func one, .machine ownInt])[0]?.bind fun w =>
      (s.turns [.func one, .machine ownInt])[1]?.bind fun w' =>
      (ownInt.compile w'.table).1.toOption.bind fun c =>
      (ownInt.turns w'.table)[0]?.bind fun u =>
      (one.toFunc { table := w.table }).1.toOption.bind fun f =>
      (one.toFunc { table := u.table, machine := some ownInt.initial }).1.toOption.bind fun g =>
      ((Expr.literal (.int 1) {}).infer
        (one.bodyTable { table := u.table, machine := some ownInt.initial })
        (some ownInt.initial)).toOption.bind fun τ =>
      (Config.prelude.builtin? intName).map fun int =>
        decide (w.result.toOption = some (.func f) ∧ w'.result.toOption = some (.machine c) ∧
          c.errors = [] ∧ u.result.toOption = some (.func g) ∧
          g.definition = some "L1_int\nL1_Controller::one()\n\x7b\n    return 1;\n\x7d\n" ∧
          τ.same int = false)) = some true := by decide +kernel
  obtain ⟨s₀, hs₀, hrun⟩ := Option.bind_eq_some_iff.mp hrun
  obtain ⟨w, hw, hrun⟩ := Option.bind_eq_some_iff.mp hrun
  obtain ⟨w', hw', hrun⟩ := Option.bind_eq_some_iff.mp hrun
  obtain ⟨c, -, hrun⟩ := Option.bind_eq_some_iff.mp hrun
  obtain ⟨u, hu, hrun⟩ := Option.bind_eq_some_iff.mp hrun
  obtain ⟨f, -, hrun⟩ := Option.bind_eq_some_iff.mp hrun
  obtain ⟨g, -, hrun⟩ := Option.bind_eq_some_iff.mp hrun
  obtain ⟨τ, hτ, hrun⟩ := Option.bind_eq_some_iff.mp hrun
  obtain ⟨int, hint, hrun⟩ := Option.map_eq_some_iff.mp hrun
  obtain ⟨hf, hc, herrors, hg, hdefinition, hother⟩ := of_decide_eq_true hrun
  rw [toOption_eq_some] at hs₀ hf hc hg hτ
  have hsound := sound_start hs₀
  have hmem := List.mem_of_getElem? hw
  have hmem' := List.mem_of_getElem? hw'
  have hdecl : w.decl = .func one := (Option.some.inj (decl_turns hsound hw)).symm
  have hdecl' : w'.decl = .machine ownInt := (Option.some.inj (decl_turns hsound hw')).symm
  obtain ⟨rest, hturns, hfirst⟩ := MachineDecl.turns_eq_cons ((turns_spec hsound _).2.1 w' hmem') hu
  exact ⟨s₀, w, w', c, u, rest, f, g, τ, int, hs₀, hmem, hdecl, hf, hmem', hdecl', hc, herrors, hturns,
    (Option.some.inj hfirst).symm, hg, hdefinition, hτ, hint, hother⟩

/-- The types in the function, outside of the machine and in it. -/
theorem builtins_in_bodies_ownInt : ∃ s₀ w w' u f g, Session.start .prelude = .ok s₀ ∧
    w ∈ s₀.turns [.func one, .machine ownInt] ∧ w' ∈ s₀.turns [.func one, .machine ownInt] ∧
    u ∈ ownInt.turns w'.table ∧ w.result = .ok (.func f) ∧ u.result = .ok (.func g) ∧
    one.Standard Config.prelude.builtin? { table := w.table } f ∧
    ownInt.meaning .prelude w'.table boolName = Config.prelude.builtin? boolName ∧
    ∃ m : StateMachine, m.functions = [] ∧
      one.Standard (ownInt.meaning .prelude w'.table) { table := u.table, machine := some m } g := by
  obtain ⟨s₀, w, w', c, u, rest, f, g, τ, int, hs₀, hw, hfd, hf, hw', hd, -, -, hturns, hfd', hg, -⟩ :=
    ownInt_turns
  have hconfig : ∀ name ∈ [intName, boolName, stringName],
      (Config.prelude.builtin? name).isSome = true := by
    decide +kernel
  have hfirst : ownInt.turns w'.table = [] ++ u :: rest := hturns
  obtain ⟨hmeaning, hmember⟩ := (builtins_in_bodies (.start hs₀) hconfig hw').2 ownInt hd
  refine ⟨s₀, w, w', u, f, g, hs₀, hw, hw', by simp [hturns], hf, hg,
    (builtins_in_bodies (.start hs₀) hconfig hw).1 one f hfd hf, (hmeaning boolName).mpr ?_,
    hmember [] u rest hfirst one g hfd' hg⟩
  intro τ hτ
  simp only [ownInt, List.mem_cons, Decl.type.injEq, reduceCtorEq, List.not_mem_nil, or_false,
    false_or] at hτ
  rw [hτ]
  decide

/-- In a machine that declares a structure `int` a constant of its function does not have the builtin
type. -/
theorem builtins_in_bodies_shadowed : ∃ s₀ w c u rest g k τ int, Session.start .prelude = .ok s₀ ∧
    w ∈ s₀.turns [.func one, .machine ownInt] ∧ w.decl = .machine ownInt ∧
    w.result = .ok (.machine c) ∧ c.errors = [] ∧ ownInt.turns w.table = u :: rest ∧
    u.decl = .func one ∧ u.result = .ok (.func g) ∧
    g.definition = some "L1_int\nL1_Controller::one()\n\x7b\n    return 1;\n\x7d\n" ∧
    one.checked { table := u.table, machine := some ownInt.initial } g.returnType = [k] ∧
    k.expr = .literal (.int 1) {} ∧ k.expr.infer k.table (some ownInt.initial) = .ok τ ∧
    Config.prelude.builtin? intName = some int ∧ τ.same int = false := by
  obtain ⟨s₀, -, w, c, u, rest, -, g, τ, int, hs₀, -, -, -, hw, hd, hc, herrors, hturns, hfd, hg,
    hdefinition, hτ, hint, hother⟩ := ownInt_turns
  exact ⟨s₀, w, c, u, rest, g, _, τ, int, hs₀, hw, hd, hc, herrors, hturns, hfd, hg, hdefinition, rfl,
    rfl, hτ, hint, hother⟩

end Session

end Coherence
