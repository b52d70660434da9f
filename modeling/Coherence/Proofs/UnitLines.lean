import Coherence.Emit.Units
import Coherence.Proofs.Rendering
/-!
# Lines of units

The text of a unit is that of a list of lines: the guard of a header and what stands between
(`Emit.headerLines_eq`), the cases of an enumeration's source (`Emit.sourceLines_eq`), the lines in front of
a definition and those of the definition (`Emit.functionTop`, `Func.definitionLines`). A line that is written
may have line breaks in it. What is read off a text line by line is then read off each line that was written
(`Listing.flatMap_text_append`).
-/

namespace Coherence

/-! ### Lines of a text -/

namespace Text

theorem splitOn_append (first rest : String) :
    (first ++ "\n" ++ rest).toList.splitOn '\n' =
      first.toList.splitOn '\n' ++ rest.toList.splitOn '\n' := by
  rw [String.toList_append, String.toList_append, List.append_assoc]
  exact List.splitOnP_append_cons first.toList rest.toList (beq_self_eq_true '\n')

theorem splitOn_line {line : String} (h : '\n' ∉ line.toList) :
    line.toList.splitOn '\n' = [line.toList] := by
  refine List.splitOnP_eq_singleton fun c hc => beq_eq_false_iff_ne.mpr ?_
  rintro rfl
  exact h hc

end Text

namespace Listing

/-- What is found in a text line by line is found in the lines that were written, one after another. -/
theorem flatMap_text_append {α : Type} {find : String → List α}
    (hfind : ∀ first rest, find (first ++ "\n" ++ rest) = find first ++ find rest) (l : Listing)
    (rest : String) : find (l.text ++ rest) = l.lines.flatMap find ++ find rest := by
  unfold text
  induction l.lines with
  | nil => simp
  | cons line lines ih =>
      rw [List.map_cons, String.join_cons, String.append_assoc, hfind, ih, List.flatMap_cons,
        List.append_assoc]

/-! ### Lines of a listing -/

@[simp]
theorem depth_addLines (l : Listing) (texts : List String) : (l.addLines texts).depth = l.depth := by
  induction texts generalizing l with
  | nil => rfl
  | cons text texts ih => exact ih (l.line text)

theorem lines_addLines (l : Listing) (texts : List String) :
    (l.addLines texts).lines = l.lines ++ texts.map (indented l.depth) := by
  induction texts generalizing l with
  | nil => exact (List.append_nil _).symm
  | cons text texts ih =>
      show ((l.line text).addLines texts).lines = _
      rw [ih]
      simp [line]

theorem indented_zero : indented 0 = id := by
  funext text
  unfold indented margin
  split
  · rename_i h
    exact h.symm
  · exact String.empty_append

theorem addLines_eq_append (l : Listing) (texts : List String) :
    l.addLines texts = l.append (texts.map (indented l.depth)) := by
  have hlines : (l.addLines texts).lines = l.lines ++ texts.map (indented l.depth) :=
    lines_addLines l texts
  have hdepth : (l.addLines texts).depth = l.depth := depth_addLines l texts
  unfold append
  rw [← hlines, ← hdepth]

theorem section_eq_append {l : Listing} (hl : l.depth = 0) (top block bottom : List String) :
    ((l.addLines top).indent.addLines block).dedent.addLines bottom =
      l.append (top ++ block.map (indented 1) ++ bottom) := by
  have htop : (l.addLines top).indent.depth = 1 := by simp [hl]
  rw [addLines_eq_append _ block, htop, dedent_append_indent, addLines_eq_append l top,
    addLines_eq_append _ bottom]
  simp only [append_append, depth_append, hl, indented_zero, List.map_id]

end Listing

namespace Emit

open Listing

/-! ### Functions -/

/-- The lines of a function's unit in front of the definition. -/
def functionTop (machine : Option StateMachine) (f : Func) : Listing :=
  let origin := if f.location = .unknown then [] else ["// Generated from " ++ f.location.text]
  let top := origin ++ (f.includes machine).map includeLine
  ({} : Listing).addLines (if top = [] then [] else top ++ [""])

theorem functionUnit_eq_some {machine : Option StateMachine} {f : Func} {u : OutputUnit} :
    functionUnit machine f = some u ↔ ∃ name definition, f.outputFile = some name ∧
      f.definition = some definition ∧ u = ⟨name, (functionTop machine f).text ++ definition⟩ := by
  unfold functionUnit
  cases f.outputFile with
  | none => exact ⟨nofun, fun ⟨_, _, hname, _⟩ => nomatch hname⟩
  | some name =>
      cases f.definition with
      | none => exact ⟨nofun, fun ⟨_, _, _, hdefinition, _⟩ => nomatch hdefinition⟩
      | some definition =>
          constructor
          · rintro ⟨⟩
            exact ⟨name, definition, rfl, rfl, rfl⟩
          · rintro ⟨_, _, ⟨⟩, ⟨⟩, rfl⟩
            rfl

/-! ### Headers -/

/-- The lines of a header, from those of its body. -/
def headerLines (ident : String) (body : Listing → Listing) : Listing :=
  (body (({} : Listing).addLines
    ["#ifndef " ++ includeGuard ident, "#define " ++ includeGuard ident, ""])).addLines
      ["", "#endif // " ++ includeGuard ident]

theorem header_eq (ident : String) (body : Listing → Listing) :
    header ident body = ⟨headerName ident, (headerLines ident body).text⟩ := rfl

/-- The lines of a header stand between those of its guard. -/
theorem headerLines_eq {ident : String} {body : Listing → Listing} {lines : List String}
    (h : ∀ l : Listing, l.depth = 0 → body l = l.append lines) :
    headerLines ident body = ({} : Listing).append
      (["#ifndef " ++ includeGuard ident, "#define " ++ includeGuard ident, ""] ++ lines ++
        ["", "#endif // " ++ includeGuard ident]) := by
  have hstart := h (({} : Listing).addLines
    ["#ifndef " ++ includeGuard ident, "#define " ++ includeGuard ident, ""]) (depth_addLines _ _)
  unfold headerLines
  rw [hstart, addLines_eq_append, addLines_eq_append]
  simp only [append_append, depth_append, indented_zero, List.map_id]

theorem structureBody_eq (d : TypeDef) {l : Listing} (hl : l.depth = 0) :
    structureBody d l = l.append (comment d.symbol.attributes.desc ++
      (if d.includes.map includeLine = [] then [] else d.includes.map includeLine ++ [""]) ++
      ["struct " ++ d.symbol.cIdent, "\x7b"] ++
      (d.members.map fun m => m.cType ++ " " ++ fieldName m.field.ident ++ ";").map (indented 1) ++
      ["\x7d;"]) :=
  section_eq_append hl _ _ _

theorem enumerationBody_eq (d : TypeDef) (values : List String) {l : Listing} (hl : l.depth = 0) :
    enumerationBody d values l = l.append (comment d.symbol.attributes.desc ++
      ["#include <string>", "", "enum class " ++ d.symbol.cIdent ++ " \x7b"] ++
      (withCommas (enumerators values)).map (indented 1) ++
      ["\x7d;", "",
        "std::string " ++ d.symbol.cIdent ++ "_to_string(const " ++ d.symbol.cIdent ++ "& obj);"]) :=
  section_eq_append hl _ _ _

theorem controllerBody_eq (m : StateMachine) {l : Listing} (hl : l.depth = 0) :
    controllerBody m l = l.append (m.includes.map includeLine ++ [""] ++ comment m.attributes.desc ++
      ["class " ++ m.controller, "\x7b", "  public:"] ++
      (m.functions.map Func.prototype).map (indented 1) ++ ["\x7d;"]) :=
  section_eq_append hl _ _ _

/-! ### Sources of enumerations -/

/-- The first lines of an enumeration's source, down to its cases. -/
def sourceTop (ident : String) : Listing :=
  (({} : Listing).addLines
    [includeLine (headerName ident), "", "std::string",
      ident ++ "_to_string(const " ++ ident ++ "& obj)", "\x7b"]).indent.line "switch (obj) \x7b"

/-- The lines of an enumeration's source. -/
def sourceLines (ident : String) (values : List String) : Listing :=
  let cases := values.foldl (caseLines ident) (sourceTop ident)
  let fallback := ((cases.line "default:").indent.line "return \"<invalid>\";").dedent
  (fallback.line "\x7d").dedent.line "\x7d"

theorem enumerationSource_eq (ident : String) (values : List String) :
    enumerationSource ident values = ⟨sourceName ident, (sourceLines ident values).text⟩ := rfl

theorem foldl_caseLines (ident : String) (values : List String) {l : Listing} (hl : l.depth = 1) :
    values.foldl (caseLines ident) l = l.append (values.flatMap fun value =>
      [indented 1 ("case " ++ caseLabel ident value ++ ":"), indented 2 ("return \"" ++ value ++ "\";")]) := by
  induction values generalizing l with
  | nil => exact l.append_nil.symm
  | cons value values ih =>
      have hcase : caseLines ident l value = l.append
          [indented 1 ("case " ++ caseLabel ident value ++ ":"),
            indented 2 ("return \"" ++ value ++ "\";")] := by
        obtain ⟨lines, depth⟩ := l
        obtain rfl : depth = 1 := hl
        simp [caseLines, line, indent, dedent, append]
      rw [List.foldl_cons, hcase, ih (by simp [hl]), append_append, List.flatMap_cons]

theorem sourceLines_eq (ident : String) (values : List String) :
    sourceLines ident values = ({} : Listing).append
      ([includeLine (headerName ident), "", "std::string",
          ident ++ "_to_string(const " ++ ident ++ "& obj)", "\x7b", indented 1 "switch (obj) \x7b"] ++
        (values.flatMap fun value => [indented 1 ("case " ++ caseLabel ident value ++ ":"),
          indented 2 ("return \"" ++ value ++ "\";")]) ++
        [indented 1 "default:", indented 2 "return \"<invalid>\";", indented 1 "\x7d", "\x7d"]) := by
  have htop : (sourceTop ident).depth = 1 := rfl
  unfold sourceLines
  rw [foldl_caseLines ident values htop]
  simp [sourceTop, line, indent, dedent, append, addLines, indented_zero]

end Emit

/-! ### Definitions -/

namespace Func

/-- The lines of a definition, from those of its body. -/
def definitionLines (f : Func) (body : Listing) : Listing where
  lines := Emit.comment f.attributes.desc ++ ([f.returnText,
    f.qualifier ++ f.ident ++ "(" ++ f.paramText ++ ")", "\x7b"] ++ (body.lines ++ ["\x7d"]))

theorem generated_of_definition {f : Func} {definition : String} (h : f.definition = some definition) :
    ∃ text, f.body = .generated text := by
  unfold Func.definition at h
  cases hbody : f.body with
  | external =>
      rw [hbody] at h
      cases h
  | generated text => exact ⟨text, rfl⟩

/-- The definition of a function with this body is the text of those lines. -/
theorem definition_eq_text {f : Func} {body : Listing} {definition : String}
    (hbody : f.body = .generated body.text) (h : f.definition = some definition) :
    definition = (f.definitionLines body).text := by
  unfold Func.definition at h
  simp only [hbody] at h
  split at h
  · cases h
  · cases h
    cases hdesc : f.attributes.desc
    all_goals
      simp only [Listing.text, definitionLines, Emit.comment, hdesc, Option.toList, List.map_append,
        List.map_cons, List.map_nil, String.join_append, String.join_cons, String.join_nil,
        String.append_assoc, String.empty_append, String.append_empty]
      rfl

end Func

end Coherence
