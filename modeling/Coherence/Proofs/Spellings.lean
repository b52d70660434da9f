import Coherence.Proofs.Forms
import Coherence.Syntax.Reader
/-!
# Spellings of trees

The forms of a declaration tree, node by node: the members of each record and of the pairs may come in any
order, a record may have members that are no fields or be a list, fields with a default may be left out
where they have it, and a variant without data may be an object. Every decoder of a node takes the forms of
the node, so all texts that hold one of these documents are read as the same declarations
(`Decl.readAll?_spellings`).
-/

namespace Coherence

open Decoder

/-! ### Forms -/

/-- The forms of a position. -/
def Location.form (l : Location) : Form := .record [
  ⟨"file", .exactly (.string l.file), l.file = ""⟩,
  ⟨"line", .exactly (.number l.line.toNat), l.line = 0⟩,
  ⟨"column", .exactly (.number l.column.toNat), l.column = 0⟩]

namespace Form.Column

/-- A field with a string. -/
def ofString (name s : String) : Column := .required name (.exactly (.string s))

/-- The field for the position of a node. -/
def position (l : Location) : Column := ⟨"location", l.form, l = {}⟩

/-- The field for the pairs of a declaration. -/
def annotations (p : Pairs) : Column := ⟨"pairs", .pairs p, p = .empty⟩

end Form.Column

open Form.Column (required ofString position annotations)

def TypeName.form (t : TypeName) : Form := .record [ofString "ident" t.ident, position t.location]

def Literal.form : Literal → Form
  | .int n => .variant "Int" (.exactly (.number n.toInt))
  | .bool b => .variant "Bool" (.exactly (.bool b))
  | .string s => .variant "String" (.exactly (.string s))

namespace Expr

mutual

/-- The forms of an expression. -/
def form : Expr → Form
  | .var ident location => .variant "Var" (.record [ofString "ident" ident, position location])
  | .literal value location =>
    .variant "Literal" (.record [required "value" value.form, position location])
  | .call ident args location =>
    .variant "Call" (.record [ofString "ident" ident, ⟨"args", .list (forms args), args = []⟩,
      position location])
  | .binary lhs op rhs location =>
    .variant "Binary" (.record [required "lhs" (form lhs), required "op" (.plain op.name),
      required "rhs" (form rhs), position location])

def forms : List Expr → List Form
  | [] => []
  | e :: es => form e :: forms es

end

def optionForm (e : Option Expr) : Form := .optional (e.map form)

end Expr

namespace Stmt

mutual

def form : Stmt → Form
  | .eval expr location => .variant "Expr" (.record [required "expr" expr.form, position location])
  | .ret value location =>
    .variant "Return" (.record [⟨"value", Expr.optionForm value, value = none⟩, position location])
  | .assign lhs rhs location =>
    .variant "Assign" (.record [required "lhs" lhs.form, required "rhs" rhs.form, position location])
  | .declare type ident init location =>
    .variant "Local" (.record [required "type" type.form, ofString "ident" ident,
      ⟨"init", Expr.optionForm init, init = none⟩, position location])
  | .branch cond thenBlock none location =>
    .variant "If" (.record [required "cond" cond.form, required "then_block" (.list (forms thenBlock)),
      ⟨"else_block", .optional none, True⟩, position location])
  | .branch cond thenBlock (some elseBlock) location =>
    .variant "If" (.record [required "cond" cond.form, required "then_block" (.list (forms thenBlock)),
      required "else_block" (.list (forms elseBlock)), position location])

def forms : List Stmt → List Form
  | [] => []
  | s :: ss => form s :: forms ss

end

end Stmt

def Formal.form (f : Formal) : Form := .record [
  required "type" f.type.form, ofString "ident" f.ident, position f.location, annotations f.pairs]

def FuncDecl.form (d : FuncDecl) : Form := .record [
  required "return_type" d.returnType.form, ofString "ident" d.ident,
  ⟨"formals", .list (d.formals.map Formal.form), d.formals = []⟩, annotations d.pairs,
  ⟨"statements", .optional (d.statements.map fun ss => .list (Stmt.forms ss)), d.statements = none⟩,
  position d.location]

def FieldDecl.form (f : FieldDecl) : Form := .record [
  required "type" f.type.form, ofString "ident" f.ident, position f.location]

def TypeBody.form : TypeBody → Form
  | .primitive => .plain "Primitive"
  | .record fields => .variant "Structure" (.list (fields.map FieldDecl.form))
  | .enumeration values => .variant "Enumeration" (.list (values.map fun s => .exactly (.string s)))

def TypeDecl.form (d : TypeDecl) : Form := .record [
  ofString "ident" d.ident, ⟨"body", d.body.form, d.body = .primitive⟩, annotations d.pairs,
  position d.location]

namespace Decl

mutual

/-- The forms of a declaration. -/
def form : Decl → Form
  | .func d => .variant "Func" d.form
  | .type d => .variant "Type" d.form
  | .machine ⟨ident, pairs, members, location⟩ =>
    .variant "Machine" (.record [ofString "ident" ident, annotations pairs,
      ⟨"decls", .list (forms members), members = []⟩, position location])

def forms : List Decl → List Form
  | [] => []
  | d :: ds => form d :: forms ds

end

end Decl

/-! ### Reading them -/

variable {limit : Nat}

theorem Location.takes_form (l : Location) : Location.decode.Takes l.form l limit := by
  refine takes_record rfl (by decide) fun room hroom cs hcs => ?_
  obtain _ | ⟨hfile, _ | ⟨hline, _ | ⟨hcolumn, _ | _⟩⟩⟩ := hcs
  have hroom := Nat.le_of_lt hroom
  simp only [(takes_string l.file).defaulted hfile id hroom,
    (takes_uint32 l.line).defaulted hline id hroom,
    (takes_uint32 l.column).defaulted hcolumn id hroom]
  rfl

theorem position_of_gives {l : Location} {room : Nat} {c : Option Json}
    (h : (position l).Gives room c) : Decoder.position room c = some l :=
  l.takes_form.defaulted h id (Nat.le_refl room)

theorem annotations_of_gives {p : Pairs} {room : Nat} {c : Option Json}
    (h : (annotations p).Gives room c) : Decoder.annotations room c = some p :=
  (takes_dictionary p).defaulted h id (Nat.le_refl room)

theorem ofString_of_gives {name s : String} {room : Nat} {c : Option Json}
    (h : (ofString name s).Gives room c) : Decoder.required string room c = some s :=
  (takes_string s).required h (Nat.le_refl room)

theorem TypeName.takes_form (t : TypeName) : TypeName.decode.Takes t.form t limit := by
  refine takes_record rfl (by decide) fun room _ cs hcs => ?_
  obtain _ | ⟨hident, _ | ⟨hlocation, _ | _⟩⟩ := hcs
  simp only [ofString_of_gives hident, position_of_gives hlocation]
  rfl

theorem Literal.takes_form : ∀ v : Literal, Literal.decode.Takes v.form v limit
  | .int n => takes_variant rfl rfl ((takes_int64 n).map Literal.int)
  | .bool b => takes_variant rfl rfl ((takes_bool b).map Literal.bool)
  | .string s => takes_variant rfl rfl ((takes_string s).map Literal.string)

theorem BinaryOp.takes_plain (op : BinaryOp) : BinaryOp.decode.Takes (.plain op.name) op limit := by
  refine Decoder.takes_plain [] ?_
  cases op <;> rfl

/-! ### Expressions -/

namespace Expr

theorem exists_form (e : Expr) : ∃ name data, e.form = .variant name data := by
  cases e <;> exact ⟨_, _, by rw [form]⟩

-- The induction is on the expression. The variant and its record open a bracket each and the expressions
-- in it none, so one step of fuel is enough for both.
mutual

/-- The forms of an expression are read with fuel for the brackets that may be opened. -/
theorem takes_form : ∀ (e : Expr) (fuel : Nat), (decodeWith fuel).Takes e.form e fuel
  | e, 0 => by
      obtain ⟨name, data, hdata⟩ := e.exists_form
      rw [hdata]
      rintro _ hroom _ ⟨_⟩
      cases hroom
  | .var ident location, fuel + 1 => by
      rw [form]
      refine takes_variant rfl rfl (takes_record rfl (by decide) fun room hroom cs hcs => ?_)
      obtain _ | ⟨hident, _ | ⟨hlocation, _ | _⟩⟩ := hcs
      simp only [ofString_of_gives hident, position_of_gives hlocation]
      rfl
  | .literal value location, fuel + 1 => by
      rw [form]
      refine takes_variant rfl rfl (takes_record rfl (by decide) fun room hroom cs hcs => ?_)
      obtain _ | ⟨hvalue, _ | ⟨hlocation, _ | _⟩⟩ := hcs
      simp only [value.takes_form.required hvalue (Nat.le_refl room), position_of_gives hlocation]
      rfl
  | .call ident args location, fuel + 1 => by
      rw [form]
      have hlist := takes_list (takes_forms args fuel)
      refine takes_variant rfl rfl (takes_record rfl (by decide) fun room hroom cs hcs => ?_)
      obtain _ | ⟨hident, _ | ⟨hargs, _ | ⟨hlocation, _ | _⟩⟩⟩ := hcs
      have hroom := Nat.le_of_lt_succ hroom
      simp only [ofString_of_gives hident, hlist.defaulted hargs id hroom, position_of_gives hlocation]
      rfl
  | .binary lhs op rhs location, fuel + 1 => by
      rw [form]
      have hleft := takes_form lhs fuel
      have hright := takes_form rhs fuel
      refine takes_variant rfl rfl (takes_record rfl (by decide) fun room hroom cs hcs => ?_)
      obtain _ | ⟨hlhs, _ | ⟨hop, _ | ⟨hrhs, _ | ⟨hlocation, _ | _⟩⟩⟩⟩ := hcs
      have hroom := Nat.le_of_lt_succ hroom
      simp only [hleft.required hlhs hroom, op.takes_plain.required hop hroom,
        hright.required hrhs hroom, position_of_gives hlocation]
      rfl

theorem takes_forms : ∀ (es : List Expr) (fuel : Nat),
    List.Forall₂ (fun form e => (decodeWith fuel).Takes form e fuel) (forms es) es
  | [], _ => .nil
  | e :: es, fuel => .cons (takes_form e fuel) (takes_forms es fuel)

end

theorem takes_decode (e : Expr) : Expr.decode.Takes e.form e limit :=
  fun room _ => e.takes_form room room (Nat.le_refl room)

theorem takes_optionForm (e : Option Expr) :
    (optional Expr.decode).Takes (optionForm e) e limit := by
  cases e with
  | none => exact takes_none _
  | some e =>
      obtain ⟨name, data, hdata⟩ := e.exists_form
      refine e.takes_decode.some fun room hnull => ?_
      rw [hdata] at hnull
      cases hnull

end Expr

/-! ### Statements -/

namespace Stmt

theorem exists_form (s : Stmt) : ∃ name data, s.form = .variant name data := by
  cases s with
  | branch cond thenBlock elseBlock location =>
      cases elseBlock <;> exact ⟨_, _, by rw [form]⟩
  | _ => exact ⟨_, _, by rw [form]⟩

mutual

theorem takes_form : ∀ (s : Stmt) (fuel : Nat), (decodeWith fuel).Takes s.form s fuel
  | s, 0 => by
      obtain ⟨name, data, hdata⟩ := s.exists_form
      rw [hdata]
      rintro _ hroom _ ⟨_⟩
      cases hroom
  | .eval expr location, fuel + 1 => by
      rw [form]
      refine takes_variant rfl rfl (takes_record rfl (by decide) fun room hroom cs hcs => ?_)
      obtain _ | ⟨hexpr, _ | ⟨hlocation, _ | _⟩⟩ := hcs
      simp only [expr.takes_decode.required hexpr (Nat.le_refl room), position_of_gives hlocation]
      rfl
  | .ret value location, fuel + 1 => by
      rw [form]
      refine takes_variant rfl rfl (takes_record rfl (by decide) fun room hroom cs hcs => ?_)
      obtain _ | ⟨hvalue, _ | ⟨hlocation, _ | _⟩⟩ := hcs
      simp only [(Expr.takes_optionForm value).defaulted hvalue id (Nat.le_refl room),
        position_of_gives hlocation]
      rfl
  | .assign lhs rhs location, fuel + 1 => by
      rw [form]
      refine takes_variant rfl rfl (takes_record rfl (by decide) fun room hroom cs hcs => ?_)
      obtain _ | ⟨hlhs, _ | ⟨hrhs, _ | ⟨hlocation, _ | _⟩⟩⟩ := hcs
      simp only [lhs.takes_decode.required hlhs (Nat.le_refl room),
        rhs.takes_decode.required hrhs (Nat.le_refl room), position_of_gives hlocation]
      rfl
  | .declare type ident init location, fuel + 1 => by
      rw [form]
      refine takes_variant rfl rfl (takes_record rfl (by decide) fun room hroom cs hcs => ?_)
      obtain _ | ⟨htype, _ | ⟨hident, _ | ⟨hinit, _ | ⟨hlocation, _ | _⟩⟩⟩⟩ := hcs
      simp only [type.takes_form.required htype (Nat.le_refl room), ofString_of_gives hident,
        (Expr.takes_optionForm init).defaulted hinit id (Nat.le_refl room),
        position_of_gives hlocation]
      rfl
  | .branch cond thenBlock none location, fuel + 1 => by
      rw [form]
      have hblock := takes_list (takes_forms thenBlock fuel)
      refine takes_variant rfl rfl (takes_record rfl (by decide) fun room hroom cs hcs => ?_)
      obtain _ | ⟨hcond, _ | ⟨hthen, _ | ⟨helse, _ | ⟨hlocation, _ | _⟩⟩⟩⟩ := hcs
      have hroom := Nat.le_of_lt_succ hroom
      simp only [cond.takes_decode.required hcond hroom, hblock.required hthen hroom,
        (takes_none (list (decodeWith fuel))).defaulted helse (fun _ => rfl) hroom,
        position_of_gives hlocation]
      rfl
  | .branch cond thenBlock (some elseBlock) location, fuel + 1 => by
      rw [form]
      have hblock := takes_list (takes_forms thenBlock fuel)
      have helseBlock := (takes_list (takes_forms elseBlock fuel)).some fun _ => nofun
      refine takes_variant rfl rfl (takes_record rfl (by decide) fun room hroom cs hcs => ?_)
      obtain _ | ⟨hcond, _ | ⟨hthen, _ | ⟨helse, _ | ⟨hlocation, _ | _⟩⟩⟩⟩ := hcs
      have hroom := Nat.le_of_lt_succ hroom
      simp only [cond.takes_decode.required hcond hroom, hblock.required hthen hroom,
        helseBlock.defaulted helse False.elim hroom, position_of_gives hlocation]
      rfl

theorem takes_forms : ∀ (ss : List Stmt) (fuel : Nat),
    List.Forall₂ (fun form s => (decodeWith fuel).Takes form s fuel) (forms ss) ss
  | [], _ => .nil
  | s :: ss, fuel => .cons (takes_form s fuel) (takes_forms ss fuel)

end

theorem takes_decodeAll (ss : List Stmt) : (list Stmt.decode).Takes (.list (forms ss)) ss limit := by
  refine takes_list ?_
  induction ss with
  | nil => exact .nil
  | cons s ss ih => exact .cons (fun room _ => s.takes_form room room (Nat.le_refl room)) ih

end Stmt

/-! ### Declarations -/

theorem forall₂_takes_map {α : Type} {d : Decoder α} {form : α → Form} (xs : List α)
    (h : ∀ x, d.Takes (form x) x limit) :
    List.Forall₂ (fun form x => d.Takes form x limit) (xs.map form) xs :=
  List.forall₂_map_left_iff.mpr (List.forall₂_same.mpr fun x _ => h x)

theorem Formal.takes_form (f : Formal) : Formal.decode.Takes f.form f limit := by
  refine takes_record rfl (by decide) fun room _ cs hcs => ?_
  obtain _ | ⟨htype, _ | ⟨hident, _ | ⟨hlocation, _ | ⟨hpairs, _ | _⟩⟩⟩⟩ := hcs
  simp only [f.type.takes_form.required htype (Nat.le_refl room), ofString_of_gives hident,
    position_of_gives hlocation, annotations_of_gives hpairs]
  rfl

theorem FuncDecl.takes_form (d : FuncDecl) : FuncDecl.decode.Takes d.form d limit := by
  have hstatements : (optional (list Stmt.decode)).Takes
      (.optional (d.statements.map fun ss => .list (Stmt.forms ss))) d.statements limit := by
    cases d.statements with
    | none => exact takes_none _
    | some ss => exact (Stmt.takes_decodeAll ss).some fun _ => nofun
  refine takes_record rfl (by decide) fun room hroom cs hcs => ?_
  obtain _ | ⟨hreturn, _ | ⟨hident, _ | ⟨hformals, _ | ⟨hpairs, _ | ⟨hbody, _ | ⟨hlocation, _ | _⟩⟩⟩⟩⟩⟩ := hcs
  have hroom := Nat.le_of_lt hroom
  have hlist : (list Formal.decode).Takes (.list (d.formals.map Formal.form)) d.formals limit :=
    takes_list (forall₂_takes_map d.formals Formal.takes_form)
  simp only [d.returnType.takes_form.required hreturn hroom, ofString_of_gives hident,
    hlist.defaulted hformals id hroom, annotations_of_gives hpairs, hstatements.defaulted hbody id hroom,
    position_of_gives hlocation]
  rfl

theorem FieldDecl.takes_form (f : FieldDecl) : FieldDecl.decode.Takes f.form f limit := by
  refine takes_record rfl (by decide) fun room _ cs hcs => ?_
  obtain _ | ⟨htype, _ | ⟨hident, _ | ⟨hlocation, _ | _⟩⟩⟩ := hcs
  simp only [f.type.takes_form.required htype (Nat.le_refl room), ofString_of_gives hident,
    position_of_gives hlocation]
  rfl

theorem TypeBody.takes_form : ∀ b : TypeBody, TypeBody.decode.Takes b.form b limit
  | .primitive => takes_plain _ rfl
  | .record fields =>
    takes_variant rfl rfl ((takes_list (forall₂_takes_map fields FieldDecl.takes_form)).map
      TypeBody.record)
  | .enumeration values =>
    takes_variant rfl rfl ((takes_list (forall₂_takes_map values takes_string)).map
      TypeBody.enumeration)

theorem TypeDecl.takes_form (d : TypeDecl) : TypeDecl.decode.Takes d.form d limit := by
  refine takes_record rfl (by decide) fun room _ cs hcs => ?_
  obtain _ | ⟨hident, _ | ⟨hbody, _ | ⟨hpairs, _ | ⟨hlocation, _ | _⟩⟩⟩⟩ := hcs
  simp only [ofString_of_gives hident, d.body.takes_form.defaulted hbody id (Nat.le_refl room),
    annotations_of_gives hpairs, position_of_gives hlocation]
  rfl

namespace Decl

theorem exists_form (d : Decl) : ∃ name data, d.form = .variant name data := by
  rcases d with d | d | ⟨ident, pairs, members, location⟩ <;> exact ⟨_, _, by rw [form]⟩

mutual

theorem takes_form : ∀ (d : Decl) (fuel : Nat), (decodeWith fuel).Takes d.form d fuel
  | d, 0 => by
      obtain ⟨name, data, hdata⟩ := d.exists_form
      rw [hdata]
      rintro _ hroom _ ⟨_⟩
      cases hroom
  | .func d, fuel + 1 => by
      rw [form]
      exact takes_variant rfl rfl (d.takes_form.map Decl.func)
  | .type d, fuel + 1 => by
      rw [form]
      exact takes_variant rfl rfl (d.takes_form.map Decl.type)
  | .machine ⟨ident, pairs, members, location⟩, fuel + 1 => by
      rw [form]
      have hlist := takes_list (takes_forms members fuel)
      refine takes_variant rfl rfl (Takes.map (x := ⟨ident, pairs, members, location⟩) ?_ Decl.machine)
      refine takes_record rfl (by decide) fun room hroom cs hcs => ?_
      obtain _ | ⟨hident, _ | ⟨hpairs, _ | ⟨hdecls, _ | ⟨hlocation, _ | _⟩⟩⟩⟩ := hcs
      have hroom := Nat.le_of_lt_succ hroom
      simp only [ofString_of_gives hident, annotations_of_gives hpairs, hlist.defaulted hdecls id hroom,
        position_of_gives hlocation]
      rfl

theorem takes_forms : ∀ (ds : List Decl) (fuel : Nat),
    List.Forall₂ (fun form d => (decodeWith fuel).Takes form d fuel) (forms ds) ds
  | [], _ => .nil
  | d :: ds, fuel => .cons (takes_form d fuel) (takes_forms ds fuel)

end

theorem takes_decodeAll (ds : List Decl) : (list decode).Takes (.list (forms ds)) ds limit := by
  refine takes_list ?_
  induction ds with
  | nil => exact .nil
  | cons d ds ih => exact .cons (fun room _ => d.takes_form room room (Nat.le_refl room)) ih

/-- The text spells the declarations: it holds a document of their forms that opens at most 127 brackets,
those apart that are passed over. -/
def Spells (source : String) (ds : List Decl) : Prop :=
  ∃ document, (Form.list (forms ds)) maxNesting document ∧ Json.Holds source document

/-- Declarations are read off a text that spells them. -/
theorem Spells.readAll? {source : String} {ds : List Decl} (h : Spells source ds) :
    readAll? source = some ds := by
  obtain ⟨document, hform, hholds⟩ := h
  rw [Decl.readAll?, hholds.parse?, Option.bind_some]
  exact takes_decodeAll ds maxNesting (Nat.le_refl _) document hform

end Decl

end Coherence
