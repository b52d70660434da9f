import Coherence.Proofs.Inert
import Coherence.Proofs.UnitLines
/-!
# Include lines of units

The lines of a unit that include headers (`OutputUnit.includeLines`), whoever wrote them: its text is cut at
line breaks. If what is written as it is given is inert, and descriptions and file names have no line breaks,
they are the lines written to include headers and no others (`Emit.includeLines_functionUnit`,
`Emit.includeLines_structure`, `Emit.includeLines_enumeration`, `Emit.includeLines_source`,
`Emit.includeLines_controller`).
-/

namespace Coherence

/-! ### Include lines of a text -/

namespace Text

/-- The line includes a header: a hash sign and the word `include` are first in it, blanks apart. -/
def isInclude (line : List Char) : Bool :=
  match line.dropWhile isBlank with
  | '#' :: rest => "include".toList.isPrefixOf (rest.dropWhile isBlank)
  | _ => false

/-- The lines of a text that include headers. -/
def includeLines (text : String) : List String :=
  ((text.toList.splitOn '\n').filter isInclude).map String.ofList

theorem includeLines_append (first rest : String) :
    includeLines (first ++ "\n" ++ rest) = includeLines first ++ includeLines rest := by
  unfold includeLines
  rw [splitOn_append, List.filter_append, List.map_append]

theorem includeLines_of_isInclude {line : String} (h : '\n' ∉ line.toList)
    (hline : isInclude line.toList = true) : includeLines line = [line] := by
  unfold includeLines
  rw [splitOn_line h, List.filter_cons_of_pos hline, List.filter_nil, List.map_singleton,
    String.ofList_toList]

theorem includeLines_of_not_isInclude {line : String} (h : '\n' ∉ line.toList)
    (hline : isInclude line.toList = false) : includeLines line = [] := by
  unfold includeLines
  rw [splitOn_line h, List.filter_cons_of_neg (Bool.eq_false_iff.mp hline), List.filter_nil,
    List.map_nil]

theorem includeLines_of_start {start rest : String} (h : ∀ cs, isInclude (start.toList ++ cs) = false)
    (hstart : '\n' ∉ start.toList) (hrest : '\n' ∉ rest.toList) : includeLines (start ++ rest) = [] := by
  refine includeLines_of_not_isInclude ?_ ?_
  · rw [String.toList_append, List.mem_append]
    exact not_or.mpr ⟨hstart, hrest⟩
  · rw [String.toList_append]
    exact h rest.toList

/-- No line of an inert text includes a header. -/
theorem Inert.includeLines_eq_nil {line : String} (h : Inert line) : includeLines line = [] := by
  refine includeLines_of_not_isInclude h.1 ?_
  have hhead := h.2
  unfold isInclude
  split
  · rename_i hdrop
    rw [hdrop] at hhead
    exact absurd rfl hhead
  · rfl

theorem flatMap_includeLines_of_inert {lines : List String} (h : ∀ line ∈ lines, Inert line) :
    lines.flatMap includeLines = [] :=
  List.flatMap_eq_nil_iff.mpr fun line hline => (h line hline).includeLines_eq_nil

/-! ### Raised letters -/

theorem ofNat_ne_newline {n : Nat} (h : n ≠ 10) : Char.ofNat n ≠ '\n' := by
  intro heq
  unfold Char.ofNat at heq
  by_cases hn : n.isValidChar
  · rw [dif_pos hn] at heq
    exact h (congrArg Char.toNat heq)
  · rw [dif_neg hn] at heq
    cases heq

/-- No other character is raised to a line break. -/
theorem newline_mem_raise {c : Char} (h : '\n' ∈ raise c) : c = '\n' := by
  have hascii : ∀ n < 0x80, (Char.ofNat n).toUpper = '\n' → Char.ofNat n = '\n' := by decide
  have hwide : ∀ e ∈ wideLetters, ∀ u ∈ e.2, u ≠ 10 := by decide
  have hruns : ∀ e ∈ letterRuns, 10 < e.2.2.2 := by decide +kernel
  unfold raise at h
  split at h
  · rename_i hc
    rw [← Char.ofNat_toNat c]
    exact hascii c.toNat hc (by rw [Char.ofNat_toNat]; exact (List.mem_singleton.mp h).symm)
  · split at h
    · rename_i us hus
      obtain ⟨_, _, hsplit, -⟩ := List.lookup_eq_some_iff.mp hus
      have hmem : (c.toNat, us) ∈ wideLetters := by
        rw [hsplit]
        exact List.mem_append_right _ List.mem_cons_self
      obtain ⟨u, hu, heq⟩ := List.mem_map.mp h
      exact absurd heq (ofNat_ne_newline (hwide _ hmem u hu))
    · split at h
      · rename_i first last step target hrun
        have htarget : 10 < target := hruns _ (List.mem_of_find?_eq_some hrun)
        exact absurd (List.mem_singleton.mp h).symm (ofNat_ne_newline (by omega))
      · exact (List.mem_singleton.mp h).symm

theorem newline_not_mem_uppercase {s : String} (h : '\n' ∉ s.toList) : '\n' ∉ (uppercase s).toList := by
  unfold uppercase
  rw [String.toList_ofList]
  intro hmem
  obtain ⟨c, hc, hraise⟩ := List.mem_flatMap.mp hmem
  exact h (newline_mem_raise hraise ▸ hc)

end Text

/-- The text of a listing has the include lines of each line that was written. -/
theorem Listing.includeLines_text (l : Listing) :
    Text.includeLines l.text = l.lines.flatMap Text.includeLines := by
  have happend := l.flatMap_text_append Text.includeLines_append ""
  rw [String.append_empty, show Text.includeLines "" = [] from rfl, List.append_nil] at happend
  exact happend

def OutputUnit.includeLines (u : OutputUnit) : List String := Text.includeLines u.contents

namespace Emit

/-! ### Lines of units -/

theorem inert_comment {desc : Option String} (h : ∀ text ∈ desc, '\n' ∉ text.toList) :
    ∀ line ∈ comment desc, Text.Inert line := by
  intro line hline
  obtain ⟨text, htext, rfl⟩ := List.mem_map.mp hline
  have hslashes : Text.Inert "// " := by decide
  exact hslashes.append_line (by decide) (h text (Option.mem_toList.mp htext))

theorem includeLines_includeLine {header : String} (h : '\n' ∉ header.toList) :
    Text.includeLines (includeLine header) = [includeLine header] := by
  refine Text.includeLines_of_isInclude ?_ ?_
  · unfold includeLine
    simpa using h
  · unfold includeLine
    rw [String.append_assoc, String.toList_append]
    rfl

theorem flatMap_includeLines_headers {headers : List String} (h : ∀ header ∈ headers, Text.Inert header) :
    (headers.map includeLine).flatMap Text.includeLines = headers.map includeLine := by
  induction headers with
  | nil => rfl
  | cons header headers ih =>
      obtain ⟨hheader, hheaders⟩ := List.forall_mem_cons.mp h
      rw [List.map_cons, List.flatMap_cons, includeLines_includeLine hheader.1, ih hheaders]
      rfl

/-- What a header includes stands between the lines of its guard. -/
theorem includeLines_header {ident : String} {body : Listing → Listing} {lines : List String}
    (hident : Text.Inert ident) (h : ∀ l : Listing, l.depth = 0 → body l = l.append lines) :
    (header ident body).includeLines = lines.flatMap Text.includeLines := by
  have hguard : '\n' ∉ (includeGuard ident).toList := by
    have hraised := Text.newline_not_mem_uppercase hident.1
    unfold includeGuard
    simpa using hraised
  have hifndef : Text.includeLines ("#ifndef " ++ includeGuard ident) = [] :=
    Text.includeLines_of_start (fun _ => rfl) (by decide) hguard
  have hdefine : Text.includeLines ("#define " ++ includeGuard ident) = [] :=
    Text.includeLines_of_start (fun _ => rfl) (by decide) hguard
  have hendif : Text.includeLines ("#endif // " ++ includeGuard ident) = [] :=
    Text.includeLines_of_start (fun _ => rfl) (by decide) hguard
  unfold OutputUnit.includeLines
  rw [header_eq, headerLines_eq h, Listing.includeLines_text]
  simp only [Listing.append, List.nil_append, List.flatMap_append, List.flatMap_cons, List.flatMap_nil,
    hifndef, hdefine, hendif]
  exact List.append_nil _

/-! ### Functions -/

theorem newline_not_mem_location {l : Location} (h : '\n' ∉ l.file.toList) : '\n' ∉ l.text.toList := by
  have hdigits : ∀ n, '\n' ∉ Nat.toDigits 10 n := fun n hmem =>
    (Text.forall_mem_toDigits (P := (· ≠ '\n')) (by omega) (by decide) n) _ hmem rfl
  unfold Location.text
  simp [h, hdigits]

theorem inert_includes {m : Option StateMachine} {f : Func} (hm : ∀ x ∈ m, Text.Inert x.ident)
    (hf : f.Inert) : ∀ header ∈ f.includes m, Text.Inert header := by
  intro header hheader
  rcases List.mem_append.mp hheader with hheader | hheader
  · obtain ⟨x, hx, rfl⟩ := Option.map_eq_some_iff.mp (Option.mem_toList.mp hheader)
    exact (StateMachine.inert_controller (hm x hx)).append (by decide)
  · exact hf.signatureHeaders header (NameSet.mem_names_ofNames.mp hheader)

/-- In front of a definition are the lines that include the headers. -/
theorem includeLines_functionTop {m : Option StateMachine} {f : Func}
    (hm : ∀ x ∈ m, Text.Inert x.ident) (hf : f.Inert) :
    (functionTop m f).lines.flatMap Text.includeLines = (f.includes m).map includeLine := by
  have hheaders := flatMap_includeLines_headers (inert_includes hm hf)
  have horigin : (if f.location = .unknown then []
      else ["// Generated from " ++ f.location.text]).flatMap Text.includeLines = [] := by
    split
    · rfl
    · have hslashes : Text.Inert "// Generated from " := by decide
      exact Text.flatMap_includeLines_of_inert (List.forall_mem_singleton.mpr
        (hslashes.append_line (by decide) (newline_not_mem_location hf.file)))
  unfold functionTop
  generalize (if f.location = .unknown then [] else ["// Generated from " ++ f.location.text]) = origin
    at horigin ⊢
  rw [Listing.lines_addLines, show ({} : Listing).depth = 0 from rfl, Listing.indented_zero, List.map_id]
  by_cases htop : origin ++ (f.includes m).map includeLine = []
  · rw [if_pos htop, (List.append_eq_nil_iff.mp htop).2]
    rfl
  · rw [if_neg htop]
    simp only [List.flatMap_append, horigin, hheaders, List.nil_append]
    exact List.append_nil _

theorem inert_definitionLines {f : Func} (hf : f.Inert) {body : Listing}
    (hbody : ∀ line ∈ body.lines, Text.Inert line) :
    ∀ line ∈ (f.definitionLines body).lines, Text.Inert line := by
  have hsignature : Text.Inert (f.qualifier ++ f.ident ++ "(" ++ f.paramText ++ ")") :=
    (((hf.qualifier.append hf.ident).append (by decide)).append hf.paramText).append (by decide)
  refine List.forall_mem_append.mpr ⟨inert_comment hf.desc, List.forall_mem_append.mpr ⟨?_, ?_⟩⟩
  · exact List.forall_mem_cons.mpr ⟨hf.returnText, List.forall_mem_cons.mpr ⟨hsignature, by decide⟩⟩
  · exact List.forall_mem_append.mpr ⟨hbody, by decide⟩

/-- A function's unit includes the controller's header, if the function belongs to one, and the headers
of its signature. -/
theorem includeLines_functionUnit {m : Option StateMachine} {f : Func} {u : OutputUnit}
    (hm : ∀ x ∈ m, Text.Inert x.ident) (hf : f.Inert) (h : functionUnit m f = some u) :
    u.includeLines = (f.includes m).map includeLine := by
  obtain ⟨name, definition, -, hdefinition, rfl⟩ := functionUnit_eq_some.mp h
  obtain ⟨text, htext⟩ := Func.generated_of_definition hdefinition
  obtain ⟨body, hbody, rfl⟩ := hf.body text htext
  unfold OutputUnit.includeLines
  rw [Listing.flatMap_text_append Text.includeLines_append, includeLines_functionTop hm hf,
    Func.definition_eq_text htext hdefinition, Listing.includeLines_text,
    Text.flatMap_includeLines_of_inert (inert_definitionLines hf hbody), List.append_nil]

/-! ### Structures -/

theorem includeLines_structure {d : TypeDef} (hd : d.Inert) :
    (header d.symbol.cIdent (structureBody d)).includeLines = d.includes.map includeLine := by
  have hheaders : ∀ header ∈ d.includes, Text.Inert header := by
    intro header hheader
    have hmem := List.mem_of_mem_filter (NameSet.mem_names_ofNames.mp hheader)
    obtain ⟨m, hm, hdeclared⟩ := List.mem_filterMap.mp hmem
    exact (hd.members m hm).2.2 header hdeclared
  have hincludes : (if d.includes.map includeLine = [] then []
      else d.includes.map includeLine ++ [""]).flatMap Text.includeLines = d.includes.map includeLine := by
    split
    · rename_i hnil
      rw [hnil]
      rfl
    · rw [List.flatMap_append, flatMap_includeLines_headers hheaders]
      exact List.append_nil _
  have hopening : ∀ line ∈ ["struct " ++ d.symbol.cIdent, "\x7b"], Text.Inert line :=
    List.forall_mem_cons.mpr ⟨Text.Inert.append (by decide) hd.cIdent, by decide⟩
  have hfields : ∀ line ∈ (d.members.map fun m => m.cType ++ " " ++ fieldName m.field.ident ++ ";").map
      (Listing.indented 1), Text.Inert line := by
    intro line hline
    obtain ⟨_, hmem, rfl⟩ := List.mem_map.mp hline
    obtain ⟨m, hm, rfl⟩ := List.mem_map.mp hmem
    obtain ⟨htype, hident, -⟩ := hd.members m hm
    have hname : Text.Inert (fieldName m.field.ident) := Text.Inert.append (by decide) hident
    exact Listing.inert_indented (((htype.append (by decide)).append hname).append (by decide)) 1
  have hclosing : ∀ line ∈ ["\x7d;"], Text.Inert line := by decide
  rw [includeLines_header hd.cIdent fun l hl => structureBody_eq d hl]
  simp only [List.flatMap_append, Text.flatMap_includeLines_of_inert (inert_comment hd.desc), hincludes,
    Text.flatMap_includeLines_of_inert hopening, Text.flatMap_includeLines_of_inert hfields,
    Text.flatMap_includeLines_of_inert hclosing, List.nil_append, List.append_nil]

/-! ### Enumerations -/

theorem inert_withCommas : ∀ {names : List String}, (∀ name ∈ names, Text.Inert name) →
    ∀ line ∈ withCommas names, Text.Inert line
  | [], _ => List.forall_mem_nil _
  | [_], h => h
  | name :: next :: names, h => by
      obtain ⟨hname, hnames⟩ := List.forall_mem_cons.mp h
      exact List.forall_mem_cons.mpr ⟨hname.append (by decide), inert_withCommas hnames⟩

theorem includeLines_enumeration {d : TypeDef} (hd : d.Inert) {values : List String}
    (hkind : d.symbol.kind = .enumeration values) :
    (header d.symbol.cIdent (enumerationBody d values)).includeLines = ["#include <string>"] := by
  have htop : ["#include <string>", "", "enum class " ++ d.symbol.cIdent ++ " \x7b"].flatMap
      Text.includeLines = ["#include <string>"] := by
    have hclass : Text.Inert ("enum class " ++ d.symbol.cIdent ++ " \x7b") :=
      (Text.Inert.append (by decide) hd.cIdent).append (by decide)
    rw [List.flatMap_cons, List.flatMap_cons, List.flatMap_cons, hclass.includeLines_eq_nil]
    rfl
  have henumerators : ∀ line ∈ (withCommas (enumerators values)).map (Listing.indented 1),
      Text.Inert line := by
    intro line hline
    obtain ⟨name, hname, rfl⟩ := List.mem_map.mp hline
    refine Listing.inert_indented (inert_withCommas (fun value hvalue => ?_) name hname) 1
    rcases List.mem_append.mp hvalue with hvalue | hvalue
    · exact hd.values values hkind value hvalue
    · rw [List.mem_singleton.mp hvalue]
      decide
  have hclosing : ∀ line ∈ ["\x7d;", "",
      "std::string " ++ d.symbol.cIdent ++ "_to_string(const " ++ d.symbol.cIdent ++ "& obj);"],
      Text.Inert line := by
    have hname : Text.Inert ("std::string " ++ d.symbol.cIdent) :=
      Text.Inert.append (by decide) hd.cIdent
    have hprototype := ((hname.append (b := "_to_string(const ") (by decide)).append hd.cIdent).append
      (b := "& obj);") (by decide)
    exact List.forall_mem_cons.mpr ⟨by decide, List.forall_mem_cons.mpr ⟨by decide,
      List.forall_mem_singleton.mpr hprototype⟩⟩
  rw [includeLines_header hd.cIdent fun l hl => enumerationBody_eq d values hl]
  simp only [List.flatMap_append, Text.flatMap_includeLines_of_inert (inert_comment hd.desc), htop,
    Text.flatMap_includeLines_of_inert henumerators, Text.flatMap_includeLines_of_inert hclosing,
    List.nil_append, List.append_nil]

theorem includeLines_source {ident : String} (hident : Text.Inert ident) {values : List String}
    (hvalues : ∀ value ∈ values, Text.Inert value) :
    (enumerationSource ident values).includeLines = [includeLine (headerName ident)] := by
  have hheader : Text.Inert (headerName ident) := hident.append (by decide)
  have htop : ∀ line ∈ ["", "std::string", ident ++ "_to_string(const " ++ ident ++ "& obj)", "\x7b",
      Listing.indented 1 "switch (obj) \x7b"], Text.Inert line := by
    have hname : Text.Inert (ident ++ "_to_string(const " ++ ident ++ "& obj)") :=
      ((hident.append (by decide)).append hident).append (by decide)
    simp only [List.forall_mem_cons, hname]
    decide
  have hcases : ∀ line ∈ values.flatMap fun value =>
      [Listing.indented 1 ("case " ++ caseLabel ident value ++ ":"),
        Listing.indented 2 ("return \"" ++ value ++ "\";")], Text.Inert line := by
    intro line hline
    obtain ⟨value, hvalue, hline⟩ := List.mem_flatMap.mp hline
    have hlabel : Text.Inert (caseLabel ident value) :=
      (hident.append (by decide)).append (hvalues value hvalue)
    have hcase : Text.Inert ("case " ++ caseLabel ident value ++ ":") :=
      (Text.Inert.append (by decide) hlabel).append (by decide)
    have hreturn : Text.Inert ("return \"" ++ value ++ "\";") :=
      (Text.Inert.append (by decide) (hvalues value hvalue)).append (by decide)
    rcases List.mem_cons.mp hline with rfl | hline
    · exact Listing.inert_indented hcase 1
    · rw [List.mem_singleton.mp hline]
      exact Listing.inert_indented hreturn 2
  have hclosing : ∀ line ∈ [Listing.indented 1 "default:", Listing.indented 2 "return \"<invalid>\";",
      Listing.indented 1 "\x7d", "\x7d"], Text.Inert line := by decide
  have hfirst : ([includeLine (headerName ident), "", "std::string",
      ident ++ "_to_string(const " ++ ident ++ "& obj)", "\x7b",
      Listing.indented 1 "switch (obj) \x7b"]).flatMap Text.includeLines =
        [includeLine (headerName ident)] := by
    rw [List.flatMap_cons, includeLines_includeLine hheader.1, Text.flatMap_includeLines_of_inert htop,
      List.append_nil]
  unfold OutputUnit.includeLines
  rw [enumerationSource_eq, sourceLines_eq, Listing.includeLines_text]
  simp only [Listing.append, List.nil_append, List.flatMap_append, hfirst,
    Text.flatMap_includeLines_of_inert hcases, Text.flatMap_includeLines_of_inert hclosing,
    List.append_nil]

/-! ### Controllers -/

/-- The header of a controller includes those of the machine's types and of its functions. -/
theorem includeLines_controller {m : StateMachine} (hm : m.Inert) :
    (controllerUnit m).includeLines = m.includes.map includeLine := by
  have hheaders : ∀ header ∈ m.includes, Text.Inert header := by
    intro header hheader
    rcases List.mem_append.mp (NameSet.mem_names_ofNames.mp hheader) with hmem | hmem
    · obtain ⟨d, hd, hdeclared⟩ := List.mem_filterMap.mp hmem
      exact TypeSymbol.inert_header (hm.types d hd).cIdent header hdeclared
    · obtain ⟨f, hf, hmem⟩ := List.mem_flatMap.mp hmem
      exact (hm.functions f hf).signatureHeaders header hmem
  have hcontroller := StateMachine.inert_controller hm.ident
  have hblank : ∀ line ∈ [""], Text.Inert line := by decide
  have hopening : ∀ line ∈ ["class " ++ m.controller, "\x7b", "  public:"], Text.Inert line :=
    List.forall_mem_cons.mpr ⟨Text.Inert.append (by decide) hcontroller, by decide⟩
  have hprototypes : ∀ line ∈ (m.functions.map Func.prototype).map (Listing.indented 1),
      Text.Inert line := by
    intro line hline
    obtain ⟨_, hmem, rfl⟩ := List.mem_map.mp hline
    obtain ⟨f, hf, rfl⟩ := List.mem_map.mp hmem
    exact Listing.inert_indented (hm.functions f hf).prototype 1
  have hclosing : ∀ line ∈ ["\x7d;"], Text.Inert line := by decide
  unfold controllerUnit
  rw [includeLines_header hcontroller fun l hl => controllerBody_eq m hl]
  simp only [List.flatMap_append, flatMap_includeLines_headers hheaders,
    Text.flatMap_includeLines_of_inert hblank, Text.flatMap_includeLines_of_inert (inert_comment hm.desc),
    Text.flatMap_includeLines_of_inert hopening, Text.flatMap_includeLines_of_inert hprototypes,
    Text.flatMap_includeLines_of_inert hclosing, List.append_nil]

end Emit

end Coherence
