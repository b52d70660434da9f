import Coherence.Proofs.ReadBack
import Coherence.Proofs.Resolution
import Coherence.Proofs.UnitNames
import Mathlib.Tactic.SplitIfs
/-!
# Inert texts

A text is inert if it has no line break and, blanks apart, no hash sign is first in it (`Text.Inert`): then it
ends no line, and no directive begins in it. Texts that are put together of inert ones are inert. String
constants are inert whatever stands in them, and expressions and statements are as soon as the names in them
are (`Expr.inert_text`, `Stmt.inert_linesAll`).
-/

namespace Coherence

/-! ### Pieces of generated code -/

namespace Text

/-- The characters that may stand in front of a directive. -/
def isBlank (c : Char) : Bool := c = ' ' || c = '\t'

/-- The text has no line break and, blanks apart, does not start with a hash sign. -/
def Inert (s : String) : Prop :=
  '\n' ∉ s.toList ∧ (s.toList.dropWhile isBlank).head? ≠ some '#'

instance (s : String) : Decidable (Inert s) := inferInstanceAs (Decidable (_ ∧ _))

theorem inert_of_forall {s : String} (h : ∀ c ∈ s.toList, c ≠ '\n' ∧ c ≠ '#') : Inert s := by
  refine ⟨fun hmem => (h _ hmem).1 rfl, fun hhead => ?_⟩
  exact (h _ ((List.dropWhile_suffix _).subset (List.mem_of_mem_head? hhead))).2 rfl

namespace Inert

variable {a b : String}

/-- What stands behind a text that is more than blanks may start with a hash sign. -/
theorem append_line (ha : Inert a) (hstart : a.toList.dropWhile isBlank ≠ []) (hb : '\n' ∉ b.toList) :
    Inert (a ++ b) := by
  constructor
  · rw [String.toList_append, List.mem_append]
    exact not_or.mpr ⟨ha.1, hb⟩
  · rw [String.toList_append, List.dropWhile_append, if_neg (by simpa using hstart),
      List.head?_append_of_ne_nil _ hstart]
    exact ha.2

theorem append (ha : Inert a) (hb : Inert b) : Inert (a ++ b) := by
  by_cases hstart : a.toList.dropWhile isBlank = []
  · constructor
    · rw [String.toList_append, List.mem_append]
      exact not_or.mpr ⟨ha.1, hb.1⟩
    · rw [String.toList_append, List.dropWhile_append, if_pos (by simpa using hstart)]
      exact hb.2
  · exact ha.append_line hstart hb.1

end Inert

theorem inert_commaList : ∀ {ss : List String}, (∀ s ∈ ss, Inert s) → Inert (commaList ss)
  | [], _ => by decide
  | [s], h => h s List.mem_cons_self
  | s :: t :: rest, h => by
      obtain ⟨hs, hrest⟩ := List.forall_mem_cons.mp h
      exact (hs.append (by decide)).append (inert_commaList hrest)

theorem newline_not_mem_escape (c : Char) : '\n' ∉ escape c := by
  have hdigits : ∀ d ∈ Nat.toDigits 16 c.toNat, d ≠ '\n' :=
    forall_mem_toDigits (by omega) (by decide) c.toNat
  unfold escape
  split_ifs with _ _ hc
  all_goals try decide
  · exact fun h => hc (List.mem_singleton.mp h).symm
  · intro h
    rcases List.mem_append.mp h with h | h
    · rcases List.mem_append.mp h with h | h
      · exact absurd h (by decide)
      · exact hdigits _ h rfl
    · exact absurd h (by decide)

/-- A string constant is inert, whatever stands in it. -/
theorem inert_constant (s : String) : Inert (constant s) := by
  have hquote : Inert "\"" := by decide
  unfold constant
  refine (hquote.append_line (by decide) ?_).append hquote
  rw [String.toList_ofList]
  intro h
  obtain ⟨c, -, hc⟩ := List.mem_flatMap.mp h
  exact newline_not_mem_escape c hc

end Text

/-! ### Lines of blocks -/

theorem inert_blanks {text : String} (h : Text.Inert text) (depth : Nat) : Text.Inert (blanks depth text) := by
  refine Text.Inert.append (Text.inert_of_forall fun c hc => ?_) h
  rw [String.toList_ofList] at hc
  rw [List.eq_of_mem_replicate hc]
  decide

theorem Listing.inert_indented {text : String} (h : Text.Inert text) (depth : Nat) :
    Text.Inert (indented depth text) := by
  unfold indented
  split
  · decide
  · rw [margin_eq]
    exact inert_blanks h depth

/-! ### Expressions -/

theorem Literal.inert_text (value : Literal) : Text.Inert value.text := by
  cases value with
  | bool b => cases b <;> decide
  | string s => exact Text.inert_constant s
  | int n =>
      have hdigits : ∀ k, ∀ c ∈ Nat.toDigits 10 k, c ≠ '\n' ∧ c ≠ '#' := fun k =>
        Text.forall_mem_toDigits (by omega) (by decide) k
      refine Text.inert_of_forall ?_
      obtain ⟨k, -, htext⟩ | ⟨k, -, htext⟩ := Expr.toList_text_int n
      · rw [htext]
        exact hdigits k
      · rw [htext]
        exact List.forall_mem_cons.mpr ⟨by decide, hdigits k⟩

theorem BinaryOp.inert_text (op : BinaryOp) : Text.Inert op.text := by cases op <;> decide

namespace Expr

mutual

/-- An expression is written in inert text if its names are inert. -/
theorem inert_text : ∀ e : Expr, (∀ name ∈ e.names, Text.Inert name) → Text.Inert e.text
  | .var ident _, h => h ident List.mem_cons_self
  | .literal value _, _ => value.inert_text
  | .call ident args _, h => by
      obtain ⟨hident, hargs⟩ := List.forall_mem_cons.mp h
      exact ((hident.append (by decide)).append (Text.inert_commaList (inert_texts args hargs))).append
        (by decide)
  | .binary lhs op rhs _, h => by
      obtain ⟨hlhs, hrhs⟩ := List.forall_mem_append.mp h
      have hleft : Text.Inert ("(" ++ lhs.text ++ " ") :=
        (Text.Inert.append (by decide) (inert_text lhs hlhs)).append (by decide)
      exact (((hleft.append op.inert_text).append (by decide)).append (inert_text rhs hrhs)).append
        (by decide)

theorem inert_texts : ∀ es : List Expr, (∀ name ∈ namesAll es, Text.Inert name) →
    ∀ text ∈ texts es, Text.Inert text
  | [], _ => List.forall_mem_nil _
  | e :: es, h => by
      obtain ⟨he, hes⟩ := List.forall_mem_append.mp h
      exact List.forall_mem_cons.mpr ⟨inert_text e he, inert_texts es hes⟩

end

end Expr

/-! ### Statements -/

namespace Stmt

mutual

/-- The names that a statement declares or mentions, those of types apart. -/
def names : Stmt → List String
  | .eval expr _ => expr.names
  | .ret none _ => []
  | .ret (some value) _ => value.names
  | .assign lhs rhs _ => lhs.names ++ rhs.names
  | .declare _ ident none _ => [ident]
  | .declare _ ident (some init) _ => ident :: init.names
  | .branch cond thenBlock none _ => cond.names ++ namesAll thenBlock
  | .branch cond thenBlock (some elseBlock) _ =>
    cond.names ++ (namesAll thenBlock ++ namesAll elseBlock)

def namesAll : List Stmt → List String
  | [] => []
  | s :: rest => names s ++ namesAll rest

end

variable {spelling : String → String}

mutual

theorem inert_lines : ∀ (depth : Nat) (s : Stmt), (∀ name ∈ s.names, Text.Inert name) →
    (∀ name ∈ s.localTypes, Text.Inert (spelling name)) → ∀ line ∈ s.lines spelling depth, Text.Inert line
  | depth, .eval expr _, h, _ =>
      List.forall_mem_singleton.mpr (inert_blanks ((expr.inert_text h).append (by decide)) depth)
  | depth, .ret none _, _, _ => List.forall_mem_singleton.mpr (inert_blanks (by decide) depth)
  | depth, .ret (some value) _, h, _ => by
      have hvalue : Text.Inert ("return " ++ value.text) :=
        Text.Inert.append (by decide) (value.inert_text h)
      exact List.forall_mem_singleton.mpr (inert_blanks (hvalue.append (by decide)) depth)
  | depth, .assign lhs rhs _, h, _ => by
      obtain ⟨hlhs, hrhs⟩ := List.forall_mem_append.mp h
      have hleft : Text.Inert (lhs.text ++ " = ") := (lhs.inert_text hlhs).append (by decide)
      exact List.forall_mem_singleton.mpr
        (inert_blanks ((hleft.append (rhs.inert_text hrhs)).append (by decide)) depth)
  | depth, .declare type ident none _, h, hspelling => by
      have htype := hspelling type.ident List.mem_cons_self
      have hident := h ident List.mem_cons_self
      exact List.forall_mem_singleton.mpr
        (inert_blanks (((htype.append (by decide)).append hident).append (by decide)) depth)
  | depth, .declare type ident (some init) _, h, hspelling => by
      have htype := hspelling type.ident List.mem_cons_self
      obtain ⟨hident, hinit⟩ := List.forall_mem_cons.mp h
      have hleft : Text.Inert (spelling type.ident ++ " " ++ ident ++ " = ") :=
        ((htype.append (by decide)).append hident).append (by decide)
      exact List.forall_mem_singleton.mpr
        (inert_blanks ((hleft.append (init.inert_text hinit)).append (by decide)) depth)
  | depth, .branch cond thenBlock none _, h, hspelling => by
      obtain ⟨hcond, hthen⟩ := List.forall_mem_append.mp h
      have hif : Text.Inert ("if (" ++ cond.text) := Text.Inert.append (by decide) (cond.inert_text hcond)
      refine List.forall_mem_append.mpr ⟨List.forall_mem_append.mpr ⟨?_, ?_⟩, ?_⟩
      · exact List.forall_mem_singleton.mpr (inert_blanks (hif.append (by decide)) depth)
      · exact inert_linesAll (depth + 1) thenBlock hthen hspelling
      · exact List.forall_mem_singleton.mpr (inert_blanks (by decide) depth)
  | depth, .branch cond thenBlock (some elseBlock) _, h, hspelling => by
      obtain ⟨hcond, hblocks⟩ := List.forall_mem_append.mp h
      obtain ⟨hthen, helse⟩ := List.forall_mem_append.mp hblocks
      obtain ⟨hspellingThen, hspellingElse⟩ := List.forall_mem_append.mp hspelling
      have hif : Text.Inert ("if (" ++ cond.text) := Text.Inert.append (by decide) (cond.inert_text hcond)
      refine List.forall_mem_append.mpr ⟨List.forall_mem_append.mpr ⟨List.forall_mem_append.mpr
        ⟨List.forall_mem_append.mpr ⟨?_, ?_⟩, ?_⟩, ?_⟩, ?_⟩
      · exact List.forall_mem_singleton.mpr (inert_blanks (hif.append (by decide)) depth)
      · exact inert_linesAll (depth + 1) thenBlock hthen hspellingThen
      · exact List.forall_mem_singleton.mpr (inert_blanks (by decide) depth)
      · exact inert_linesAll (depth + 1) elseBlock helse hspellingElse
      · exact List.forall_mem_singleton.mpr (inert_blanks (by decide) depth)

/-- Statements are written in inert lines if their names are inert and so are the spellings of the local
variables' types. -/
theorem inert_linesAll : ∀ (depth : Nat) (ss : List Stmt), (∀ name ∈ namesAll ss, Text.Inert name) →
    (∀ name ∈ localTypesAll ss, Text.Inert (spelling name)) →
      ∀ line ∈ linesAll spelling depth ss, Text.Inert line
  | _, [], _, _ => List.forall_mem_nil _
  | depth, s :: rest, h, hspelling => by
      obtain ⟨hs, hrest⟩ := List.forall_mem_append.mp h
      obtain ⟨hspellingHead, hspellingRest⟩ := List.forall_mem_append.mp hspelling
      exact List.forall_mem_append.mpr
        ⟨inert_lines depth s hs hspellingHead, inert_linesAll depth rest hrest hspellingRest⟩

end

end Stmt

/-! ### Declarations -/

/-- The names of a function, of its parameters and of what stands in its body. -/
def FuncDecl.names (d : FuncDecl) : List String :=
  d.ident :: (d.formals.map Formal.ident ++ Stmt.namesAll (d.body?.getD []))

/-- The names of a type, of its fields and of its values. -/
def TypeDecl.names (d : TypeDecl) : List String :=
  d.ident :: match d.body with
    | .primitive => []
    | .record fields => fields.map FieldDecl.ident
    | .enumeration values => values

namespace Decl

mutual

/-- The names in a declaration that are written as they are. -/
def names : Decl → List String
  | .func d => d.names
  | .type d => d.names
  | .machine ⟨ident, _, members, _⟩ => ident :: namesAll members

def namesAll : List Decl → List String
  | [] => []
  | d :: ds => names d ++ namesAll ds

end

mutual

/-- The texts in a declaration that are written into comments: descriptions, and the names of the files
that functions come from. -/
def remarks : Decl → List String
  | .func d => d.location.file :: d.attributes.desc.toList
  | .type d => d.attributes.desc.toList
  | .machine ⟨_, pairs, members, _⟩ => (Attributes.ofPairs pairs).desc.toList ++ remarksAll members

def remarksAll : List Decl → List String
  | [] => []
  | d :: ds => remarks d ++ remarksAll ds

end

/-- The names of a declaration are inert, and what is written into comments is of one line. -/
structure Inert (d : Decl) : Prop where
  names : ∀ name ∈ d.names, Text.Inert name
  remarks : ∀ text ∈ d.remarks, '\n' ∉ text.toList

theorem inert_of_mem {ds : List Decl} (hnames : ∀ name ∈ namesAll ds, Text.Inert name)
    (hremarks : ∀ text ∈ remarksAll ds, '\n' ∉ text.toList) : ∀ d ∈ ds, d.Inert := by
  induction ds with
  | nil => exact List.forall_mem_nil _
  | cons d ds ih =>
      obtain ⟨hname, hnames⟩ := List.forall_mem_append.mp hnames
      obtain ⟨hremark, hremarks⟩ := List.forall_mem_append.mp hremarks
      exact List.forall_mem_cons.mpr ⟨⟨hname, hremark⟩, ih hnames hremarks⟩

theorem Inert.members {d : MachineDecl Decl} (h : (Decl.machine d).Inert) : ∀ u ∈ d.members, u.Inert := by
  obtain ⟨ident, pairs, members, location⟩ := d
  exact inert_of_mem (fun name hname => h.names name (List.mem_cons_of_mem _ hname))
    fun text htext => h.remarks text (List.mem_append_right _ htext)

end Decl

theorem inert_qualify {owner : Option String} {ident : String} (howner : ∀ x ∈ owner, Text.Inert x)
    (hident : Text.Inert ident) : Text.Inert (qualify owner ident) := by
  cases owner with
  | none => exact hident
  | some x => exact ((howner x rfl).append (by decide)).append hident

/-! ### What compiled -/

/-- The type is written in inert text, and its description is of one line. -/
structure TypeDef.Inert (d : TypeDef) : Prop where
  cIdent : Text.Inert d.symbol.cIdent
  desc : ∀ text ∈ d.symbol.attributes.desc, '\n' ∉ text.toList
  values : ∀ values, d.symbol.kind = .enumeration values → ∀ value ∈ values, Text.Inert value
  members : ∀ m ∈ d.members, Text.Inert m.cType ∧ Text.Inert m.field.ident ∧
    ∀ header ∈ m.header, Text.Inert header

/-- The function is written in inert text, its description and the name of its file are of one line, and so
are the lines of its body. -/
structure Func.Inert (f : Func) : Prop where
  ident : Text.Inert f.ident
  machine : ∀ m ∈ f.machine, Text.Inert m
  types : ∀ τ ∈ f.signatureTypes, Text.Inert τ.cIdent
  params : ∀ p ∈ f.params, Text.Inert p.ident
  desc : ∀ text ∈ f.attributes.desc, '\n' ∉ text.toList
  file : '\n' ∉ f.location.file.toList
  body : ∀ text, f.body = .generated text →
    ∃ body : Listing, (∀ line ∈ body.lines, Text.Inert line) ∧ text = body.text

/-- The machine and all its members are written in inert text. -/
structure StateMachine.Inert (m : StateMachine) : Prop where
  ident : Text.Inert m.ident
  desc : ∀ text ∈ m.attributes.desc, '\n' ∉ text.toList
  functions : ∀ f ∈ m.functions, f.Inert
  types : ∀ d ∈ m.types, d.Inert

theorem StateMachine.inert_controller {m : StateMachine} (h : Text.Inert m.ident) :
    Text.Inert m.controller := h.append (by decide)

theorem TypeSymbol.inert_header {τ : TypeSymbol} (h : Text.Inert τ.cIdent) :
    ∀ header ∈ τ.header, Text.Inert header := by
  intro header hheader
  unfold TypeSymbol.header at hheader
  split at hheader
  · cases hheader
  · cases hheader
    exact h.append (by decide)

namespace Func

variable {f : Func} (h : f.Inert)

include h

theorem Inert.returnText : Text.Inert f.returnText := by
  obtain ⟨mark, hmark, hreturn⟩ := f.returnText_marked
  have hinert : ∀ mark ∈ ["", "&", "*"], Text.Inert mark := by decide
  rw [hreturn]
  exact (h.types _ List.mem_cons_self).append (hinert mark hmark)

theorem Inert.paramText : Text.Inert f.paramText := by
  refine Text.inert_commaList fun s hs => ?_
  obtain ⟨p, hp, rfl⟩ := List.mem_map.mp hs
  exact ((h.types _ (List.mem_cons_of_mem _ (List.mem_map_of_mem hp))).append (by decide)).append
    (h.params p hp)

theorem Inert.prototype : Text.Inert f.prototype :=
  (((((h.returnText.append (by decide)).append h.ident).append (by decide)).append h.paramText).append
    (by decide))

theorem Inert.qualifier : Text.Inert f.qualifier := by
  have hmachine := h.machine
  unfold Func.qualifier
  cases hm : f.machine with
  | none => decide
  | some m => exact (hmachine m hm).append (by decide)

theorem Inert.signatureHeaders : ∀ header ∈ f.signatureHeaders, Text.Inert header := by
  intro header hheader
  obtain ⟨τ, hτ, hdeclared⟩ := List.mem_filterMap.mp hheader
  exact TypeSymbol.inert_header (h.types τ hτ) header hdeclared

end Func

/-- What is compiled of an inert function is inert, if the types found by name are spelled so. -/
theorem FuncDecl.inert_toFunc {s : Site} {d : FuncDecl} {f : Func} (h : (d.toFunc s).1 = .ok f)
    (howner : ∀ x ∈ s.owner, Text.Inert x)
    (hspelled : ∀ name τ, s.table.findType? name = some τ → Text.Inert τ.cIdent)
    (hd : (Decl.func d).Inert) : f.Inert := by
  have hresolved := resolved_toFunc h
  obtain ⟨hident, hlocation, hmachine, hattributes, hexternal⟩ := toFunc_eq_ok h
  have hnames : ∀ name ∈ d.names, Text.Inert name := hd.names
  obtain ⟨hname, hrest⟩ := List.forall_mem_cons.mp hnames
  obtain ⟨hformals, hstatements⟩ := List.forall_mem_append.mp hrest
  obtain ⟨hfile, hdesc⟩ := List.forall_mem_cons.mp hd.remarks
  constructor
  case ident => exact hident ▸ hname
  case machine => exact hmachine ▸ howner
  case types =>
    intro τ hτ
    obtain ⟨name, hfound⟩ := hresolved.linked τ hτ
    exact hspelled name τ hfound
  case params =>
    intro q hq
    obtain ⟨p, hp, -, hsame⟩ := exists_of_mem_forall₂ hresolved.params hq
    exact hsame ▸ hformals _ (List.mem_map_of_mem hp)
  case desc =>
    have hsame : f.attributes.desc = d.attributes.desc := by
      rw [hattributes]
      split_ifs <;> rfl
    rw [hsame]
    exact fun text htext => hdesc text (Option.mem_toList.mpr htext)
  case file => exact hlocation ▸ hfile
  case body =>
    intro text htext
    cases hbody : d.body? with
    | none =>
        rw [hexternal.mpr hbody] at htext
        cases htext
    | some statements =>
        obtain ⟨-, haccepted, hgenerated⟩ := generated_toFunc h hbody
        rw [hgenerated] at htext
        cases htext
        refine ⟨_, ?_, rfl⟩
        rw [Code.writeAll_codes]
        rw [hbody] at hstatements
        refine Stmt.inert_linesAll 1 statements hstatements fun name hname => ?_
        obtain ⟨τ, hτ⟩ := Body.findType?_generate _ _ _ statements haccepted name hname
        have hfound : s.table.findType? name = some τ :=
          ((grown_bindFormals s.table.push d.formals).findType? name).symm.trans hτ
        unfold SymbolTable.spelling
        rw [hfound]
        exact hspelled name τ hfound

theorem TypeDecl.Resolved.inert {meaning : String → Option TypeSymbol} {owner : Option String}
    {d : TypeDecl} {τ : TypeDef} {home : FrameId} (h : d.Resolved meaning owner τ)
    (hsymbol : τ.symbol = { d.symbol owner with home }) (howner : ∀ x ∈ owner, Text.Inert x)
    (hspelled : ∀ name σ, meaning name = some σ → Text.Inert σ.cIdent) (hd : (Decl.type d).Inert) :
    τ.Inert := by
  have hnames : ∀ name ∈ d.names, Text.Inert name := hd.names
  obtain ⟨hname, hparts⟩ := List.forall_mem_cons.mp hnames
  constructor
  case cIdent =>
    rw [h.cIdent]
    exact inert_qualify howner hname
  case desc =>
    rw [hsymbol]
    exact fun text htext => hd.remarks text (Option.mem_toList.mpr htext)
  case values =>
    intro values hkind
    have hbody : d.kind = .enumeration values := by
      rw [← hkind, hsymbol]
      rfl
    unfold TypeDecl.kind at hbody
    split at hbody
    · cases hbody
    · cases hbody
    · rename_i hvalues
      cases hbody
      rw [hvalues] at hparts
      exact hparts
  case members =>
    intro m hm
    obtain ⟨f, hf, hident, σ, hσ, htype⟩ := exists_of_mem_forall₂ h.members hm
    unfold TypeDecl.fieldDecls at hf
    split at hf
    · rename_i fields hfields
      rw [hfields] at hparts
      refine ⟨?_, hident ▸ hparts _ (List.mem_map_of_mem hf), ?_⟩
      · rw [Member.cType, htype]
        exact hspelled _ σ hσ
      · rw [Member.header, htype]
        exact TypeSymbol.inert_header (hspelled _ σ hσ)
    · cases hf

end Coherence
