import Coherence.Emit.Units
import Coherence.Proofs.Views
import Mathlib.Data.List.Forall2
/-!
# The types that a declaration names

A declaration names types: for the result and the parameters of a function, and for the fields of a
structure. Each of them is the type that the name leads to in the symbol table where the declaration is
compiled (`FuncDecl.resolved_toFunc`, `TypeDecl.resolved_compileDeclared`), whatever else the
declaration binds on the way. The generated texts spell the same types (`FuncDecl.Resolved.spelled`,
`TypeDecl.Resolved.spelled`).
-/

namespace Coherence

/-- The spelling of the type that a name means; the name itself if it means none. -/
def spelled (meaning : String → Option TypeSymbol) (name : String) : String :=
  match meaning name with
  | some τ => τ.cIdent
  | none => name

theorem spelled_eq {meaning : String → Option TypeSymbol} {name : String} {τ : TypeSymbol}
    (h : meaning name = some τ) : spelled meaning name = τ.cIdent := by
  unfold spelled
  rw [h]

/-! ### What is to be said of a declaration -/

namespace FuncDecl

/-- The types of the function are those that the declaration's names mean. -/
structure Resolved (meaning : String → Option TypeSymbol) (owner : Option String) (d : FuncDecl)
    (f : Func) : Prop where
  ident : f.ident = d.ident
  machine : f.machine = owner
  returnType : meaning d.returnType.ident = some f.returnType
  params : List.Forall₂ (fun (p : Formal) (q : Param) =>
    meaning p.type.ident = some q.type ∧ q.ident = p.ident) d.formals f.params

/-- The parameters as they stand between the parentheses, by the names of their types. -/
def paramText (spelling : String → String) (d : FuncDecl) : String :=
  Text.commaList (d.formals.map fun p => spelling p.type.ident ++ " " ++ p.ident)

/-- The prototype and the definition of the function spell the declaration's types like this, with a
mark of the return mode after the result. -/
def Spelled (spelling : String → String) (d : FuncDecl) (f : Func) : Prop :=
  ∃ mark ∈ ["", "&", "*"],
    f.prototype = spelling d.returnType.ident ++ mark ++ " " ++ d.ident ++ "(" ++
      d.paramText spelling ++ ");" ∧
    ∀ text, f.definition = some text → ∃ comment body,
      text = comment ++ (spelling d.returnType.ident ++ mark) ++ "\n" ++ f.qualifier ++ d.ident ++
        "(" ++ d.paramText spelling ++ ")\n" ++ "\x7b\n" ++ body ++ "\x7d\n"

end FuncDecl

namespace TypeDecl

/-- The fields of a structure; other types have none. -/
def fieldDecls (d : TypeDecl) : List FieldDecl :=
  match d.body with
  | .record fields => fields
  | _ => []

/-- The type is what its own name means, and its fields are of the types that the declaration's names
mean. -/
structure Resolved (meaning : String → Option TypeSymbol) (owner : Option String) (d : TypeDecl)
    (τ : TypeDef) : Prop where
  ident : τ.symbol.ident = d.ident
  machine : τ.symbol.machine = owner
  cIdent : τ.symbol.cIdent = qualify owner d.ident
  self : meaning d.ident = some τ.symbol
  members : List.Forall₂ (fun (f : FieldDecl) (m : Member) => m.field.ident = f.ident ∧
    ∃ σ, meaning f.type.ident = some σ ∧ m.type = some σ.asFieldType) d.fieldDecls τ.members

/-- The lines of a structure's header that declare its fields. -/
def fieldLines (spelling : String → String) (d : TypeDecl) : List String :=
  d.fieldDecls.map fun f => spelling f.type.ident ++ " " ++ Emit.fieldName f.ident ++ ";"

/-- The header of the structure spells its own name after the machine's, and the types of its fields
like this. -/
def Spelled (spelling : String → String) (owner : Option String) (d : TypeDecl) (τ : TypeDef) :
    Prop :=
  ∀ out, ∃ top, Emit.structureBody τ out =
    ((Listing.addLines out (top ++ ["struct " ++ qualify owner d.ident, "\x7b"])).indent.addLines
      (d.fieldLines spelling)).dedent.addLines ["\x7d;"]

end TypeDecl

/-! ### Spellings -/

theorem map_eq_of_forall₂ {α β γ : Type} {R : α → β → Prop} {f : α → γ} {g : β → γ}
    {l : List α} {l' : List β} (h : List.Forall₂ R l l') (hfg : ∀ a ∈ l, ∀ b, R a b → f a = g b) :
    l.map f = l'.map g := by
  induction h with
  | nil => rfl
  | cons hab _ ih =>
      obtain ⟨hhead, htail⟩ := List.forall_mem_cons.mp hfg
      rw [List.map_cons, List.map_cons, hhead _ hab, ih htail]

theorem exists_of_mem_forall₂ {α β : Type} {R : α → β → Prop} {l : List α} {l' : List β}
    (h : List.Forall₂ R l l') {b : β} (hb : b ∈ l') : ∃ a ∈ l, R a b := by
  induction h with
  | nil => cases hb
  | cons hab _ ih =>
      rcases List.mem_cons.mp hb with rfl | hb
      · exact ⟨_, List.mem_cons_self, hab⟩
      · obtain ⟨a, ha, h⟩ := ih hb
        exact ⟨a, List.mem_cons_of_mem _ ha, h⟩

theorem Func.returnText_marked (f : Func) :
    ∃ mark ∈ ["", "&", "*"], f.returnText = f.returnType.cIdent ++ mark := by
  unfold returnText
  split
  · exact ⟨"", by simp, by simp⟩
  · split
    · exact ⟨"", by simp, by simp⟩
    · exact ⟨"&", by simp, rfl⟩
    · exact ⟨"*", by simp, rfl⟩

/-- A function whose types are those that the names mean is spelled so. -/
theorem FuncDecl.Resolved.spelled {meaning : String → Option TypeSymbol} {owner : Option String}
    {d : FuncDecl} {f : Func} (h : d.Resolved meaning owner f) :
    d.Spelled (Coherence.spelled meaning) f := by
  obtain ⟨mark, hmark, hreturn⟩ := f.returnText_marked
  have hresult : f.returnText = Coherence.spelled meaning d.returnType.ident ++ mark := by
    rw [hreturn, spelled_eq h.returnType]
  have hparams : f.paramText = d.paramText (Coherence.spelled meaning) := by
    refine congrArg Text.commaList (map_eq_of_forall₂ h.params ?_).symm
    rintro p - q ⟨hτ, hident⟩
    rw [spelled_eq hτ, hident]
  refine ⟨mark, hmark, ?_, fun text htext => ?_⟩
  · rw [Func.prototype, hresult, hparams, h.ident]
  · unfold Func.definition at htext
    split at htext
    · cases htext
    · split at htext
      · cases htext
      · cases htext
        rw [hresult, hparams, h.ident]
        exact ⟨_, _, rfl⟩

theorem TypeDecl.Resolved.spelled {meaning : String → Option TypeSymbol} {owner : Option String}
    {d : TypeDecl} {τ : TypeDef} (h : d.Resolved meaning owner τ) :
    d.Spelled (Coherence.spelled meaning) owner τ := by
  have hlines : (τ.members.map fun m => m.cType ++ " " ++ Emit.fieldName m.field.ident ++ ";") =
      d.fieldLines (Coherence.spelled meaning) := by
    refine (map_eq_of_forall₂ h.members ?_).symm
    rintro f - m ⟨hident, σ, hσ, htype⟩
    rw [spelled_eq hσ, hident, Member.cType, htype]
    rfl
  intro out
  unfold Emit.structureBody
  rw [hlines, h.cIdent]
  exact ⟨_, rfl⟩

/-! ### What compiled mentions types that names mean -/

/-- Each type of the signature is what some name means. -/
def Func.Linked (meaning : String → Option TypeSymbol) (f : Func) : Prop :=
  ∀ τ ∈ f.signatureTypes, ∃ name, meaning name = some τ

/-- Each field has the type that the name on record means. -/
def TypeDef.Linked (meaning : String → Option TypeSymbol) (τ : TypeDef) : Prop :=
  List.Forall₂ (fun (f : Field) (m : Member) =>
    ∃ σ, meaning f.typeName = some σ ∧ m.type = some σ.asFieldType) τ.symbol.fields τ.members

theorem FuncDecl.Resolved.linked {meaning : String → Option TypeSymbol} {owner : Option String}
    {d : FuncDecl} {f : Func} (h : d.Resolved meaning owner f) : f.Linked meaning := by
  intro τ hτ
  rcases List.mem_cons.mp hτ with rfl | hτ
  · exact ⟨_, h.returnType⟩
  · obtain ⟨q, hq, rfl⟩ := List.mem_map.mp hτ
    obtain ⟨p, -, hp, -⟩ := exists_of_mem_forall₂ h.params hq
    exact ⟨_, hp⟩

/-! ### Symbol tables -/

namespace SymbolTable

variable {t u : SymbolTable}

theorem findType?_eq_some {name : String} {τ : TypeSymbol} :
    t.findType? name = some τ ↔ t.lookup name .type = some (.type τ) := by
  unfold findType?
  cases t.lookup name .type with
  | none => simp
  | some s => cases s <;> simp

theorem findType?_bind_var (t : SymbolTable) (v : Var) (name : String) :
    (t.bind (.var v)).findType? name = t.findType? name := by
  apply findType?_congr
  rw [lookup_bind, if_neg]
  intro h
  cases congrArg Prod.snd h

end SymbolTable

/-! ### Functions -/

theorem Param.zip?_formals {R : Formal → TypeSymbol → Prop} {formals : List Formal}
    {types : List TypeSymbol} {params : List Param} (h : List.Forall₂ R formals types)
    (hzip : zip? types (formals.map Formal.ident) = some params) :
    List.Forall₂ (fun p (q : Param) => R p q.type ∧ q.ident = p.ident) formals params := by
  induction h generalizing params with
  | nil =>
      cases hzip
      exact .nil
  | cons hp _ ih =>
      obtain ⟨rest, hrest, rfl⟩ := Option.map_eq_some_iff.mp hzip
      exact .cons ⟨hp, rfl⟩ (ih hrest)

namespace FuncDecl

/-- Parameters bound on the way do not change which types the names of later ones lead to. -/
theorem resolved_bindFormals {t : SymbolTable} {formals : List Formal} {types : List TypeSymbol}
    {names : List String} (h : (bindFormals t formals).1 = .ok (types, names)) :
    List.Forall₂ (fun p τ => t.findType? p.type.ident = some τ) formals types ∧
      names = formals.map Formal.ident := by
  induction formals generalizing t types names with
  | nil =>
      cases h
      exact ⟨.nil, rfl⟩
  | cons f fs ih =>
      unfold bindFormals at h
      split at h
      · cases h
      · rename_i τ hτ
        split at h
        · cases h
        · rename_i hd
          obtain ⟨-, rfl⟩ := SymbolTable.declare_eq_ok.mp hd
          obtain ⟨⟨types', names'⟩, hrest, heq⟩ := map_eq_ok.mp h
          cases heq
          obtain ⟨hresolved, rfl⟩ := ih hrest
          refine ⟨.cons (SymbolTable.resolveType_ok_iff.mp hτ) (hresolved.imp fun p σ hσ => ?_), rfl⟩
          rwa [SymbolTable.findType?_bind_var] at hσ

theorem resolved_toFunc {s : Site} {d : FuncDecl} {f : Func} (h : (d.toFunc s).1 = .ok f) :
    d.Resolved s.table.findType? s.owner f := by
  unfold toFunc at h
  split at h
  · cases h
  · rename_i τ hτ
    obtain ⟨parts, hparts, h⟩ := bind_eq_ok.mp h
    unfold assemble at h
    split at h
    · cases h
    · rename_i params hzip
      cases h
      refine ⟨rfl, rfl, SymbolTable.resolveType_ok_iff.mp hτ, ?_⟩
      unfold compileParts at hparts
      split at hparts
      · cases hparts
      · rename_i hb
        obtain ⟨body, -, rfl⟩ := map_eq_ok.mp hparts
        obtain ⟨hresolved, rfl⟩ := resolved_bindFormals (congrArg Prod.fst hb)
        exact Param.zip?_formals hresolved hzip

end FuncDecl

/-! ### Types -/

namespace TypeDecl

variable {type : TypeSymbol}

/-- Fields found on the way do not change which types the names of later ones lead to. What is found is
put on record. -/
theorem resolved_resolveFields {t : SymbolTable} {position : Nat} {fields : List Field}
    (h : (resolveFields type t position fields).1 = .ok ()) :
    ∃ found : List TypeSymbol,
      List.Forall₂ (fun f τ => t.findType? f.typeName = some τ) fields found ∧
      (resolveFields type t position fields).2.foundFields type =
        t.foundFields type ++ found.map TypeSymbol.asFieldType := by
  induction fields generalizing t position with
  | nil => exact ⟨[], .nil, (List.append_nil _).symm⟩
  | cons f fs ih =>
      unfold resolveFields at h ⊢
      split at h
      · cases h
      · rename_i τ hτ
        split at h
        · cases h
        · rename_i t₁ hr
          split at h
          · cases h
          · rename_i hd
            obtain ⟨-, rfl⟩ := SymbolTable.declare_eq_ok.mp hd
            obtain ⟨found, hfound, hrecord⟩ := ih h
            unfold SymbolTable.resolveField at hr
            split at hr
            · cases hr
            · cases hr
              refine ⟨τ :: found, .cons (SymbolTable.resolveType_ok_iff.mp hτ)
                (hfound.imp fun g σ hσ => ?_), ?_⟩
              · rwa [SymbolTable.findType?_bind_var] at hσ
              · rw [hrecord]
                simp [SymbolTable.foundFields, SymbolTable.bind]

theorem foundFields_bindValues (t : SymbolTable) (values : List String) :
    (bindValues type t values).2.foundFields type = t.foundFields type := by
  induction values generalizing t with
  | nil => rfl
  | cons v vs ih =>
      unfold bindValues
      split
      · rfl
      · rename_i hd
        obtain ⟨-, rfl⟩ := SymbolTable.declare_eq_ok.mp hd
        rw [ih]
        rfl

theorem resolved_checkMembers {t : SymbolTable} (h : (checkMembers type t).1 = .ok ()) :
    ∃ found : List TypeSymbol,
      List.Forall₂ (fun f τ => t.findType? f.typeName = some τ) type.fields found ∧
      (checkMembers type t).2.foundFields type =
        t.foundFields type ++ found.map TypeSymbol.asFieldType := by
  unfold checkMembers at h ⊢
  unfold TypeSymbol.fields
  cases hkind : type.kind with
  | record fields =>
      rw [hkind] at h
      exact resolved_resolveFields h
  | enumeration values =>
      exact ⟨[], .nil, by rw [List.map_nil, List.append_nil]; exact foundFields_bindValues t values⟩
  | primitive => exact ⟨[], .nil, (List.append_nil _).symm⟩
  | void => exact ⟨[], .nil, (List.append_nil _).symm⟩

theorem forall₂_align {fields : List Field} {found : List TypeSymbol}
    {R : Field → TypeSymbol → Prop} (h : List.Forall₂ R fields found) :
    List.Forall₂ (fun f (m : Member) => m.field = f ∧ ∃ σ, R f σ ∧ m.type = some σ.asFieldType)
      fields (TypeDef.align fields (found.map TypeSymbol.asFieldType)) := by
  induction h with
  | nil => exact .nil
  | cons hf _ ih => exact .cons ⟨rfl, _, hf, rfl⟩ ih

theorem fields_symbol (machine : Option String) (d : TypeDecl) :
    (d.symbol machine).fields =
      d.fieldDecls.map fun f => ⟨f.ident, f.type.ident, f.location⟩ := by
  unfold TypeSymbol.fields symbol kind fieldDecls
  cases d.body <;> rfl

theorem Resolved.linked {meaning : String → Option TypeSymbol} {owner : Option String} {d : TypeDecl}
    {τ : TypeDef} {home : FrameId} (h : d.Resolved meaning owner τ)
    (hsymbol : τ.symbol = { d.symbol owner with home }) : τ.Linked meaning := by
  have hfields : τ.symbol.fields = d.fieldDecls.map fun f => ⟨f.ident, f.type.ident, f.location⟩ := by
    rw [hsymbol]
    exact d.fields_symbol owner
  rw [TypeDef.Linked, hfields, List.forall₂_map_left_iff]
  exact h.members.imp fun f m hm => hm.2

/-- The types of a structure's fields are those that their names lead to where it is compiled, if none of
them is on record before. -/
theorem resolved_compileDeclared {s : Site} {d : TypeDecl} {ps : List Pending} {def' : TypeDef}
    (h : s.table.Awaits s.owner (.type d (.declared type) :: ps))
    (hc : (compileDeclared s type).1 = .ok def') : d.Resolved s.table.findType? s.owner def' := by
  obtain ⟨-, hbound, hunseen, -⟩ := h.head
  have hsettled : type = { d.symbol s.owner with home := s.table.top.id } :=
    h.settled _ List.mem_cons_self
  unfold compileDeclared at hc
  split at hc
  · cases hc
  · rename_i inner hinner
    obtain ⟨found, hfound, hrecord⟩ := resolved_checkMembers (congrArg Prod.fst hinner)
    rw [hinner, show s.table.push.foundFields type = [] from foundFields_of_unseen hunseen,
      List.nil_append] at hrecord
    have hfields : type.fields = d.fieldDecls.map fun f => ⟨f.ident, f.type.ident, f.location⟩ := by
      rw [hsettled]
      exact fields_symbol s.owner d
    have hmembers : def'.members =
        TypeDef.align type.fields (found.map TypeSymbol.asFieldType) := by
      cases hc
      rw [← hrecord, ← foundFields_close]
      rfl
    have hsymbol : def'.symbol = type := by
      cases hc
      rfl
    refine ⟨?_, ?_, ?_, ?_, ?_⟩
    · rw [hsymbol, hsettled]
      rfl
    · rw [hsymbol, hsettled]
      rfl
    · rw [hsymbol, hsettled]
      rfl
    · have hident : d.ident = type.ident := by
        rw [hsettled]
        rfl
      rw [SymbolTable.findType?_eq_some, SymbolTable.lookup_eq_or, hident, hbound, hsymbol]
      rfl
    · have haligned := forall₂_align hfound
      rw [← hmembers, hfields, List.forall₂_map_left_iff] at haligned
      refine haligned.imp ?_
      rintro f m ⟨hfield, htype⟩
      exact ⟨congrArg Field.ident hfield, htype⟩

end TypeDecl

end Coherence
