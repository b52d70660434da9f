import Mathlib
import Coherence.Proofs.Spellings
/-!
# Reading written trees

The document that a declaration is written as is one of its forms (`Decl.covers_toJson`): node by node, a
record as an object with all fields in order, a variant as an object or as its name. So declarations are
read off their text (`Decl.readAll?_writeAll`), and off all other spellings (`Decl.readAll?_spellings`).
-/

namespace Coherence

open Decoder (maxNesting)
open Form

theorem Location.covers_toJson (l : Location) : l.form.Covers l.toJson :=
  covers_record (.cons ⟨rfl, covers_exactly _⟩ (.cons ⟨rfl, covers_exactly _⟩
    (.cons ⟨rfl, covers_exactly _⟩ .nil)))

theorem TypeName.covers_toJson (t : TypeName) : t.form.Covers t.toJson :=
  covers_record (.cons ⟨rfl, covers_exactly _⟩ (.cons ⟨rfl, t.location.covers_toJson⟩ .nil))

/-! ### Expressions -/

theorem Literal.covers_toJson : ∀ v : Literal, v.form.Covers v.toJson
  | .int _ => (covers_exactly _).variant "Int"
  | .bool _ => (covers_exactly _).variant "Bool"
  | .string _ => (covers_exactly _).variant "String"

namespace Expr

mutual

theorem covers_toJson : ∀ e : Expr, e.form.Covers e.toJson
  | .var ident location => by
      rw [form, toJson]
      refine (covers_record ?_).variant "Var"
      exact .cons ⟨rfl, covers_exactly _⟩ (.cons ⟨rfl, location.covers_toJson⟩ .nil)
  | .literal value location => by
      rw [form, toJson]
      refine (covers_record ?_).variant "Literal"
      exact .cons ⟨rfl, value.covers_toJson⟩ (.cons ⟨rfl, location.covers_toJson⟩ .nil)
  | .call ident args location => by
      rw [form, toJson]
      refine (covers_record ?_).variant "Call"
      exact .cons ⟨rfl, covers_exactly _⟩ (.cons ⟨rfl, covers_list (covers_listToJson args)⟩
        (.cons ⟨rfl, location.covers_toJson⟩ .nil))
  | .binary lhs op rhs location => by
      rw [form, toJson]
      refine (covers_record ?_).variant "Binary"
      exact .cons ⟨rfl, covers_toJson lhs⟩ (.cons ⟨rfl, covers_plain op.name⟩
        (.cons ⟨rfl, covers_toJson rhs⟩ (.cons ⟨rfl, location.covers_toJson⟩ .nil)))

theorem covers_listToJson : ∀ es : List Expr, List.Forall₂ Covers (forms es) (listToJson es)
  | [] => .nil
  | e :: es => .cons (covers_toJson e) (covers_listToJson es)

end

theorem covers_optionToJson : ∀ e : Option Expr, (optionForm e).Covers (optionToJson e)
  | none => covers_exactly _
  | some e => e.covers_toJson

end Expr

/-! ### Statements -/

namespace Stmt

mutual

theorem covers_toJson : ∀ s : Stmt, s.form.Covers s.toJson
  | .eval expr location => by
      rw [form, toJson]
      refine (covers_record ?_).variant "Expr"
      exact .cons ⟨rfl, expr.covers_toJson⟩ (.cons ⟨rfl, location.covers_toJson⟩ .nil)
  | .ret value location => by
      rw [form, toJson]
      refine (covers_record ?_).variant "Return"
      exact .cons ⟨rfl, Expr.covers_optionToJson value⟩ (.cons ⟨rfl, location.covers_toJson⟩ .nil)
  | .assign lhs rhs location => by
      rw [form, toJson]
      refine (covers_record ?_).variant "Assign"
      exact .cons ⟨rfl, lhs.covers_toJson⟩ (.cons ⟨rfl, rhs.covers_toJson⟩
        (.cons ⟨rfl, location.covers_toJson⟩ .nil))
  | .declare type ident init location => by
      rw [form, toJson]
      refine (covers_record ?_).variant "Local"
      exact .cons ⟨rfl, type.covers_toJson⟩ (.cons ⟨rfl, covers_exactly _⟩
        (.cons ⟨rfl, Expr.covers_optionToJson init⟩ (.cons ⟨rfl, location.covers_toJson⟩ .nil)))
  | .branch cond thenBlock none location => by
      rw [form, toJson]
      refine (covers_record ?_).variant "If"
      exact .cons ⟨rfl, cond.covers_toJson⟩ (.cons ⟨rfl, covers_list (covers_listToJson thenBlock)⟩
        (.cons ⟨rfl, covers_exactly _⟩ (.cons ⟨rfl, location.covers_toJson⟩ .nil)))
  | .branch cond thenBlock (some elseBlock) location => by
      rw [form, toJson]
      refine (covers_record ?_).variant "If"
      exact .cons ⟨rfl, cond.covers_toJson⟩ (.cons ⟨rfl, covers_list (covers_listToJson thenBlock)⟩
        (.cons ⟨rfl, covers_list (covers_listToJson elseBlock)⟩
          (.cons ⟨rfl, location.covers_toJson⟩ .nil)))

theorem covers_listToJson : ∀ ss : List Stmt, List.Forall₂ Covers (forms ss) (listToJson ss)
  | [] => .nil
  | s :: ss => .cons (covers_toJson s) (covers_listToJson ss)

end

end Stmt

/-! ### Declarations -/

theorem forall₂_covers_map {α : Type} {form : α → Form} {write : α → Json} (xs : List α)
    (h : ∀ x, (form x).Covers (write x)) : List.Forall₂ Covers (xs.map form) (xs.map write) :=
  List.forall₂_map_left_iff.mpr (List.forall₂_map_right_iff.mpr (List.forall₂_same.mpr fun x _ => h x))

theorem Formal.covers_toJson (f : Formal) : f.form.Covers f.toJson :=
  covers_record (.cons ⟨rfl, f.type.covers_toJson⟩ (.cons ⟨rfl, covers_exactly _⟩
    (.cons ⟨rfl, f.location.covers_toJson⟩ (.cons ⟨rfl, covers_pairs f.pairs⟩ .nil))))

theorem FuncDecl.covers_toJson (d : FuncDecl) : d.form.Covers d.toJson := by
  obtain ⟨returnType, ident, formals, pairs, statements, location⟩ := d
  have hformals := covers_list (forall₂_covers_map formals Formal.covers_toJson)
  refine covers_record (.cons ⟨rfl, returnType.covers_toJson⟩ (.cons ⟨rfl, covers_exactly _⟩
    (.cons ⟨rfl, hformals⟩ (.cons ⟨rfl, covers_pairs pairs⟩ (.cons ⟨rfl, ?_⟩
      (.cons ⟨rfl, location.covers_toJson⟩ .nil))))))
  cases statements with
  | none => exact covers_exactly _
  | some ss => exact covers_list (Stmt.covers_listToJson ss)

theorem FieldDecl.covers_toJson (f : FieldDecl) : f.form.Covers f.toJson :=
  covers_record (.cons ⟨rfl, f.type.covers_toJson⟩ (.cons ⟨rfl, covers_exactly _⟩
    (.cons ⟨rfl, f.location.covers_toJson⟩ .nil)))

theorem TypeBody.covers_toJson : ∀ b : TypeBody, b.form.Covers b.toJson
  | .primitive => covers_plain "Primitive"
  | .record fields =>
    (covers_list (forall₂_covers_map fields FieldDecl.covers_toJson)).variant "Structure"
  | .enumeration values =>
    (covers_list (forall₂_covers_map values fun _ => covers_exactly _)).variant "Enumeration"

theorem TypeDecl.covers_toJson (d : TypeDecl) : d.form.Covers d.toJson :=
  covers_record (.cons ⟨rfl, covers_exactly _⟩ (.cons ⟨rfl, d.body.covers_toJson⟩
    (.cons ⟨rfl, covers_pairs d.pairs⟩ (.cons ⟨rfl, d.location.covers_toJson⟩ .nil))))

namespace Decl

mutual

theorem covers_toJson : ∀ d : Decl, d.form.Covers d.toJson
  | .func d => by
      rw [form, toJson]
      exact d.covers_toJson.variant "Func"
  | .type d => by
      rw [form, toJson]
      exact d.covers_toJson.variant "Type"
  | .machine ⟨ident, pairs, members, location⟩ => by
      rw [form, toJson]
      refine (covers_record ?_).variant "Machine"
      exact .cons ⟨rfl, covers_exactly _⟩ (.cons ⟨rfl, covers_pairs pairs⟩
        (.cons ⟨rfl, covers_list (covers_listToJson members)⟩ (.cons ⟨rfl, location.covers_toJson⟩ .nil)))

theorem covers_listToJson : ∀ ds : List Decl, List.Forall₂ Covers (forms ds) (listToJson ds)
  | [] => .nil
  | d :: ds => .cons (covers_toJson d) (covers_listToJson ds)

end

theorem ofJson?_listToJson {ds : List Decl} (h : (Json.array (listToJson ds)).nesting ≤ maxNesting) :
    ofJson? (.array (listToJson ds)) = some ds :=
  takes_decodeAll ds maxNesting (Nat.le_refl _) _ (covers_list (covers_listToJson ds) _ h)

theorem writeAll_eq_textWith (ds : List Decl) :
    writeAll ds = (Json.array (listToJson ds)).textWith Json.quoted := (Json.textWith_quoted _).symm

theorem nestingOf_writeAll (ds : List Decl) :
    Json.nestingOf (writeAll ds) = (Json.array (listToJson ds)).nesting := by
  rw [writeAll_eq_textWith, Json.nestingOf_textWith Json.Token.quotes_quoted]

/-- The text that declarations are written as spells them. -/
theorem spells_writeAll {ds : List Decl} (h : Json.nestingOf (writeAll ds) ≤ maxNesting) :
    Spells (writeAll ds) ds := by
  rw [nestingOf_writeAll] at h
  refine ⟨_, covers_list (covers_listToJson ds) maxNesting h, ?_⟩
  rw [writeAll_eq_textWith]
  exact Json.holds_textWith Json.Token.quotes_quoted _

/-- Reading undoes writing: declarations whose text nests no more than 127 brackets are read off that
text, and off any other that writes the strings of the same document in another way. So to read, to write
and to read again is to read once. -/
theorem readAll?_writeAll (ds : List Decl) (h : Json.nestingOf (writeAll ds) ≤ maxNesting) :
    readAll? (writeAll ds) = some ds ∧
      (∀ quote : String → String, (∀ s, Json.Token.Quotes (quote s) s) →
        readAll? ((Json.array (listToJson ds)).textWith quote) = some ds) ∧
      ∀ source, readAll? source = some ds →
        ((readAll? source).map writeAll).bind readAll? = readAll? source := by
  rw [nestingOf_writeAll] at h
  have hquote : ∀ quote : String → String, (∀ s, Json.Token.Quotes (quote s) s) →
      readAll? ((Json.array (listToJson ds)).textWith quote) = some ds := by
    intro quote hquote
    rw [readAll?, Json.parse?_textWith hquote, Option.bind_some, ofJson?_listToJson h]
  have hread : readAll? (writeAll ds) = some ds := by
    rw [writeAll_eq_textWith]
    exact hquote _ Json.Token.quotes_quoted
  refine ⟨hread, hquote, fun source hsource => ?_⟩
  rw [hsource, Option.map_some, Option.bind_some, hread]

/-- A machine with the least integer, the greatest position, and strings with characters of all kinds. -/
def extremes : List Decl := [
  .machine {
    ident := "L1", pairs := NameMap.empty.insert "desc" "\"𝄞\" \\ \u0001"
    location := { file := "ß.sm", line := 4294967295, column := 1 }
    members := [
      .type { ident := "State", body := .enumeration ["I", "∅"] },
      .func {
        returnType := { ident := "int" }, ident := "next"
        formals := [{ type := { ident := "int" }, ident := "x" }]
        statements := some [
          .branch (.binary (.var "x" {}) .lt (.literal (.int Int64.minValue) {}) {})
            [.ret (some (.call "abs" [.literal (.string "\n🙂") {}] {})) {}] none {},
          .ret none {}] }] }]

/-- They are read back, also off a text in ASCII. -/
theorem readAll?_writeAll_extremes : Json.nestingOf (writeAll extremes) ≤ maxNesting ∧
    readAll? (writeAll extremes) = some extremes ∧
    readAll? ((Json.array (listToJson extremes)).textWith Json.Token.asciiQuoted) = some extremes := by
  have hnesting : Json.nestingOf (writeAll extremes) ≤ maxNesting := by
    rw [nestingOf_writeAll]
    decide +kernel
  obtain ⟨hread, hquote, -⟩ := readAll?_writeAll extremes hnesting
  exact ⟨hnesting, hread, hquote _ Json.Token.quotes_asciiQuoted⟩

/-- All spellings of declarations are read alike, the text that they are written as among them. Such a text
may have blanks between its tokens, the members of a record and the pairs in any order, members that are no
fields with any value, records as lists, and variants without data as objects; it may leave out fields that
have their default. -/
theorem readAll?_spellings (ds : List Decl) :
    (∀ source, Spells source ds → readAll? source = some ds) ∧
      (Json.nestingOf (writeAll ds) ≤ maxNesting → Spells (writeAll ds) ds) :=
  ⟨fun _ h => h.readAll?, spells_writeAll⟩

/-- A type with pairs and a position. -/
def stateDecl : TypeDecl where
  ident := "State"
  pairs := (NameMap.empty.insert "desc" "ab").insert "external" "yes"
  location := { line := 3 }

/-- Its members in reverse order, with one that is no field, and its body as an object. -/
def stateDocument : Json := .object (List.reverse [
  ("ident", .string "State"), ("body", .object [("Primitive", .null)]),
  ("pairs", .object [("external", .string "yes"), ("desc", .string "ab")]),
  ("location", .array [.string "", .number 3]),
  ("note", .array [.unreadable, .unreadable, .unreadable])])

theorem form_stateDocument (room : Nat) : stateDecl.form (room + 2) stateDocument := by
  have hpairs : Form.pairs stateDecl.pairs (room + 1)
      (.object [("external", .string "yes"), ("desc", .string "ab")]) :=
    @Form.pairs.mk _ _ [("external", "yes"), ("desc", "ab")] (by decide)
  have hposition : stateDecl.location.form (room + 1) (.array [.string "", .number 3]) :=
    .list (.given .mk (.given .mk (.omitted (List.forall_mem_singleton.mpr rfl))))
  have hnote : ∀ m ∈ [("note", Json.array [.unreadable, .unreadable, .unreadable])],
      m.1 ∉ ["ident", "body", "pairs", "location"] := by decide
  exact .object (.given .mk (.given .object (.given hpairs (.given hposition .nil)))) hnote
    (List.reverse_perm _)

/-- A branch without an alternative. -/
def branchStmt : Stmt :=
  .branch (.binary (.var "x" {}) .eq (.literal (.int (-1)) {}) {}) [.ret none {}] none {}

/-- Its fields as lists or in reverse order, and what has its default left out. -/
def branchDocument : Json := .variant "If" (.array [
  .variant "Binary" (.object (List.reverse [("lhs", .variant "Var" (.array [.string "x"])),
    ("op", .variant "Eq" .null), ("rhs", .variant "Literal" (.array [.variant "Int" (.number (-1))]))])),
  .array [.variant "Return" (.object [])]])

theorem form_branchDocument (room : Nat) : branchStmt.form (room + 7) branchDocument := by
  have hposition : ∀ column ∈ [Column.position {}], column.omissible :=
    List.forall_mem_singleton.mpr rfl
  have hlhs : (Expr.var "x" {}).form (room + 3) (.variant "Var" (.array [.string "x"])) :=
    .mk (.list (.given .mk (.omitted hposition)))
  have hrhs : (Expr.literal (.int (-1)) {}).form (room + 3)
      (.variant "Literal" (.array [.variant "Int" (.number (-1))])) :=
    .mk (.list (.given (.mk .mk) (.omitted hposition)))
  have hcond : (Expr.binary (.var "x" {}) .eq (.literal (.int (-1)) {}) {}).form (room + 5)
      (.variant "Binary" (.object (List.reverse [("lhs", .variant "Var" (.array [.string "x"])),
        ("op", .variant "Eq" .null),
        ("rhs", .variant "Literal" (.array [.variant "Int" (.number (-1))]))]))) :=
    .mk (.object (.given hlhs (.given .object (.given hrhs (.omitted rfl .nil))))
      (List.forall_mem_nil _) (List.reverse_perm _))
  have hreturn : (Stmt.ret none {}).form (room + 4) (.variant "Return" (.object [])) :=
    .mk (.object (.omitted rfl (.omitted rfl .nil)) (List.forall_mem_nil _) (.refl _))
  exact .mk (.list (.given hcond (.given (.mk (.cons hreturn .nil))
    (.omitted (List.forall_mem_cons.mpr ⟨trivial, hposition⟩)))))

/-- A type, and a machine with a function. -/
def spelled : List Decl := [
  .type stateDecl,
  .machine {
    ident := "L1"
    members := [
      .func {
        returnType := { ident := "int" }, ident := "next"
        formals := [{ type := { ident := "int" }, ident := "x" }]
        statements := some [branchStmt] }] }]

/-- The machine and the parameter as lists, the function as an object with its members in reverse order. -/
def spelledDocument : Json := .array [
  .variant "Type" stateDocument,
  .variant "Machine" (.array [.string "L1", .object [], .array [
    .variant "Func" (.object (List.reverse [
      ("return_type", .array [.string "int"]), ("ident", .string "next"),
      ("formals", .array [.array [.array [.string "int"], .string "x"]]),
      ("statements", .array [branchDocument])]))]])]

theorem form_spelledDocument : Form.list (forms spelled) maxNesting spelledDocument := by
  have hposition : ∀ column ∈ [Column.position {}], column.omissible :=
    List.forall_mem_singleton.mpr rfl
  have hint : (TypeName.form { ident := "int" }) 121 (.array [.string "int"]) :=
    .list (.given .mk (.omitted hposition))
  have hint' : (TypeName.form { ident := "int" }) 119 (.array [.string "int"]) :=
    .list (.given .mk (.omitted hposition))
  have hpairs : ∀ column ∈ [Column.position {}, Column.annotations .empty], column.omissible :=
    List.forall_mem_cons.mpr ⟨rfl, List.forall_mem_singleton.mpr rfl⟩
  have hformal : (Formal.form { type := { ident := "int" }, ident := "x" }) 120
      (.array [.array [.string "int"], .string "x"]) :=
    .list (.given hint' (.given .mk (.omitted hpairs)))
  -- A function, in a machine, in the list of declarations.
  refine .mk (.cons (.mk (form_stateDocument 123)) (.cons (.mk (.list (.given .mk
    (.given (@Form.pairs.mk _ _ [] (.refl _)) (.given (.mk (.cons ?_ .nil)) (.omitted hposition)))))) .nil))
  exact .mk (.object (.given hint (.given .mk (.given (.mk (.cons hformal .nil)) (.omitted rfl
    (.given (.mk (.cons (form_branchDocument 113) .nil)) (.omitted rfl .nil))))))
    (List.forall_mem_nil _) (List.reverse_perm _))

def spelledText : String :=
  "[ \x7b\"Type\": \x7b\"note\": [1e5, \"\\ud800\", " ++
  "\x7b\"\\udc00\": -0.5\x7d], \"location\": [\"\", 3],\n" ++
  "  \"pairs\": \x7b\"external\": \"yes\", \"desc\": \"a\\u0062\"\x7d,\n" ++
  "  \"body\": \x7b\"Primitive\": null\x7d, \"ident\": \"State\"\x7d\x7d,\n" ++
  " \x7b\"Machine\": [\"L1\", \x7b\x7d, [\x7b\"Func\": \x7b\"statements\": " ++
  "[\x7b\"If\": [\x7b\"Binary\": \x7b\"rhs\": \x7b\"Literal\": [\x7b\"Int\": -1\x7d]\x7d,\n" ++
  "  \"op\": \x7b\"Eq\": null\x7d, \"lhs\": \x7b\"Var\": [\"x\"]\x7d\x7d\x7d, " ++
  "[\x7b\"Return\": \x7b\x7d\x7d]]\x7d],\n  \"formals\": [[[\"int\"], \"x\"]], " ++
  "\"ident\": \"next\", \"return_type\": [\"int\"]\x7d\x7d]]\x7d ]"

set_option maxRecDepth 8000 in
theorem holds_spelledText : Json.Holds spelledText spelledDocument := by
  refine Json.parse?_eq_some_iff.mp ?_
  unfold spelledText Json.parse?
  simp only [String.toList_append]
  cbv

/-- They are read off this text, and it is a spelling as their own text is. -/
theorem readAll?_spellings_spelled : Spells spelledText spelled ∧ readAll? spelledText = some spelled ∧
    Json.nestingOf (writeAll spelled) ≤ maxNesting ∧ Spells (writeAll spelled) spelled := by
  have hspells : Spells spelledText spelled :=
    ⟨spelledDocument, form_spelledDocument, holds_spelledText⟩
  have hnesting : Json.nestingOf (writeAll spelled) ≤ maxNesting := by
    rw [nestingOf_writeAll]
    decide +kernel
  obtain ⟨hread, hwritten⟩ := readAll?_spellings spelled
  exact ⟨hspells, hread spelledText hspells, hnesting, hwritten hnesting⟩

end Decl

end Coherence
