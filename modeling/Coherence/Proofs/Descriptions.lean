import Coherence.Proofs.Guards
import Coherence.Proofs.Noninterference
import Coherence.Proofs.Turns
import Mathlib.Data.List.Forall2
/-!
# Descriptions in units

A description is written in one place of one unit, after two slashes at the start of a line. Lists of
declarations that differ in the texts of descriptions alone so have the same diagnostics and the same units
up to those texts, and the units are the same but for their comment lines as long as no description has a
line break (`Session.descriptions_stay`). What stands after a line break in a description is not in the
comment any more.
-/

namespace Coherence

/-! ### Comment lines -/

namespace Text

/-- The line is a comment: two slashes are first in it, blanks apart. -/
def isComment (line : List Char) : Bool :=
  "//".toList.isPrefixOf (line.dropWhile fun c => c = ' ' || c = '\t')

/-- The lines of a text without those that are comments. -/
def code (text : String) : List (List Char) :=
  (text.toList.splitOn '\n').filter fun line => !isComment line

theorem code_append (first rest : String) : code (first ++ "\n" ++ rest) = code first ++ code rest := by
  unfold code
  rw [splitOn_append, List.filter_append]

/-- A description of one line is nothing but a comment. -/
theorem code_comment {desc : String} (h : '\n' ∉ desc.toList) : code ("// " ++ desc) = [] := by
  have hline : '\n' ∉ ("// " ++ desc).toList := by simpa using h
  have hcomment : isComment ("// " ++ desc).toList = true := by
    rw [String.toList_append]
    simp [isComment]
  unfold code
  rw [splitOn_line hline, List.filter_cons_of_neg (by simp only [hcomment, Bool.not_true,
    Bool.false_eq_true, not_false_eq_true]), List.filter_nil]

end Text

/-- The lines of a listing count one by one, whatever line breaks are in them. -/
theorem Listing.code_text_append (l : Listing) (rest : String) :
    Text.code (l.text ++ rest) = l.lines.flatMap Text.code ++ Text.code rest :=
  l.flatMap_text_append Text.code_append rest

theorem Emit.code_comment {desc : Option String} (h : ∀ d ∈ desc, '\n' ∉ d.toList) :
    (comment desc).flatMap Text.code = [] := by
  cases desc with
  | none => rfl
  | some d =>
      show Text.code ("// " ++ d) ++ [] = []
      rw [List.append_nil]
      exact Text.code_comment (h d rfl)

/-! ### Units -/

/-- What does not change under `change` is the same for all that are changed into one. -/
theorem eq_of_blind {α β : Type} {change : α → α} {a b : α} (h : change a = change b) (observe : α → β)
    (hblind : ∀ a, observe (change a) = observe a) : observe a = observe b := by
  rw [← hblind a, h, hblind b]

theorem forall₂_of_map_eq {α : Type} {change : α → α} {as bs : List α} (h : as.map change = bs.map change)
    {P P' : α → Prop} (hP : ∀ a ∈ as, P a) (hP' : ∀ b ∈ bs, P' b) :
    List.Forall₂ (fun a b => change a = change b ∧ P a ∧ P' b) as bs := by
  induction as generalizing bs with
  | nil =>
      cases bs with
      | nil => exact .nil
      | cons b bs => cases h
  | cons a as ih =>
      cases bs with
      | nil => cases h
      | cons b bs =>
          obtain ⟨hab, htail⟩ := List.cons.inj h
          obtain ⟨ha, has⟩ := List.forall_mem_cons.mp hP
          obtain ⟨hb, hbs⟩ := List.forall_mem_cons.mp hP'
          exact .cons ⟨hab, ha, hb⟩ (ih htail has hbs)

section units

variable {P P' : String → Prop}

/-- At most the text of one comment tells the units apart, a description in each. -/
structure OutputUnit.Redescribed (P P' : String → Prop) (u v : OutputUnit) : Prop where
  name : u.name = v.name
  contents : ∃ (lines : List String) (rest : String) (desc desc' : Option String),
    (∀ d ∈ desc, P d) ∧ (∀ d ∈ desc', P' d) ∧ desc.isSome = desc'.isSome ∧
    u.contents = ({ lines := lines ++ Emit.comment desc } : Listing).text ++ rest ∧
    v.contents = ({ lines := lines ++ Emit.comment desc' } : Listing).text ++ rest

namespace OutputUnit.Redescribed

variable {u v : OutputUnit}

theorem refl : Redescribed P P' u u :=
  ⟨rfl, [], u.contents, none, none, nofun, nofun, rfl, (String.empty_append).symm,
    (String.empty_append).symm⟩

/-- Without comment lines the units are the same, if the descriptions have no line breaks. -/
theorem code_eq (h : Redescribed P P' u v) (hP : ∀ d, P d → '\n' ∉ d.toList)
    (hP' : ∀ d, P' d → '\n' ∉ d.toList) : Text.code u.contents = Text.code v.contents := by
  obtain ⟨-, lines, rest, desc, desc', hdesc, hdesc', -, hu, hv⟩ := h
  rw [hu, hv, Listing.code_text_append, Listing.code_text_append, List.flatMap_append,
    List.flatMap_append, Emit.code_comment fun d hd => hP d (hdesc d hd),
    Emit.code_comment fun d hd => hP' d (hdesc' d hd)]

end OutputUnit.Redescribed

/-- The description is one of these, if there is one. -/
def Attributes.Describes (P : String → Prop) (a : Attributes) : Prop := ∀ d ∈ a.desc, P d

/-- The descriptions of a machine and its members are among these. -/
structure StateMachine.Describes (P : String → Prop) (m : StateMachine) : Prop where
  attributes : m.attributes.Describes P
  functions : ∀ f ∈ m.functions, f.attributes.Describes P
  types : ∀ d ∈ m.types, d.symbol.attributes.Describes P

/-- The descriptions of all that is in an output are among these. -/
structure Output.Describes (P : String → Prop) (o : Output) : Prop where
  functions : ∀ f ∈ o.functions, f.attributes.Describes P
  types : ∀ d ∈ o.types, d.symbol.attributes.Describes P
  machines : ∀ m ∈ o.machines, m.Describes P

namespace Emit

theorem redescribed_header (before after : List String) {ident : String} {body body' : Listing → Listing}
    {desc desc' : Option String} (hdesc : ∀ d ∈ desc, P d) (hdesc' : ∀ d ∈ desc', P' d)
    (hsome : desc.isSome = desc'.isSome)
    (h : ∀ l : Listing, l.depth = 0 → body l = l.append (before ++ (comment desc ++ after)))
    (h' : ∀ l : Listing, l.depth = 0 → body' l = l.append (before ++ (comment desc' ++ after))) :
    (header ident body).Redescribed P P' (header ident body') := by
  refine ⟨rfl, ["#ifndef " ++ includeGuard ident, "#define " ++ includeGuard ident, ""] ++ before,
    ({ lines := after ++ ["", "#endif // " ++ includeGuard ident] } : Listing).text, desc, desc', hdesc,
    hdesc', hsome, ?_, ?_⟩
  · rw [header_eq, headerLines_eq h]
    simp [Listing.text, Listing.append, String.join_append, String.append_assoc]
  · rw [header_eq, headerLines_eq h']
    simp [Listing.text, Listing.append, String.join_append, String.append_assoc]

end Emit

/-! ### Functions -/

namespace Func

theorem paramText_redact (f : Func) : f.redact.paramText = f.paramText := by
  unfold paramText
  rw [show f.redact.params = f.params.map Param.redact from rfl, List.map_map]
  rfl

theorem prototype_redact (f : Func) : f.redact.prototype = f.prototype := by
  unfold prototype
  rw [paramText_redact]
  rfl

theorem signatureHeaders_redact (f : Func) : f.redact.signatureHeaders = f.signatureHeaders := by
  unfold signatureHeaders signatureTypes
  rw [show f.redact.params = f.params.map Param.redact from rfl, List.map_map, List.filterMap_cons,
    List.filterMap_cons, List.filterMap_map, List.filterMap_map]
  rfl

/-- The definition without the comment in front of it. -/
def bareDefinition (f : Func) : Option String :=
  { f with attributes := { f.attributes with desc := none } }.definition

theorem bareDefinition_redact (f : Func) : f.redact.bareDefinition = f.bareDefinition := by
  have hparams := f.paramText_redact
  unfold bareDefinition definition
  obtain ⟨ident, location, returnType, params, body, attributes, machine⟩ := f
  cases body with
  | external => rfl
  | generated text =>
      unfold paramText at hparams ⊢
      simp only [redact] at hparams ⊢
      rw [hparams]
      rfl

theorem definition_eq (f : Func) : f.definition = f.bareDefinition.map fun text =>
    ({ lines := Emit.comment f.attributes.desc } : Listing).text ++ text := by
  obtain ⟨ident, location, returnType, params, body, attributes, machine⟩ := f
  unfold bareDefinition definition
  cases body with
  | external => rfl
  | generated text =>
      simp only
      split_ifs
      · rfl
      · cases attributes.desc with
        | none => rfl
        | some desc =>
            simp [Listing.text, Emit.comment, String.append_assoc, returnText, qualifier, paramText]

end Func

namespace Emit

theorem functionTop_redact (m : Option StateMachine) (f : Func) :
    functionTop (m.map StateMachine.redact) f.redact = functionTop m f := by
  have hincludes : f.redact.includes (m.map StateMachine.redact) = f.includes m := by
    unfold Func.includes
    rw [Func.signatureHeaders_redact, Option.map_map]
    rfl
  unfold functionTop
  rw [hincludes]
  rfl

theorem functionUnit_eq (m : Option StateMachine) (f : Func) : functionUnit m f =
    f.outputFile.bind fun name => f.bareDefinition.map fun text =>
      ⟨name, ({ lines := (functionTop m f).lines ++ comment f.attributes.desc } : Listing).text ++ text⟩ := by
  have hdefinition := f.definition_eq
  unfold functionUnit
  cases f.outputFile with
  | none => rfl
  | some name =>
      simp only [hdefinition]
      cases f.bareDefinition with
      | none => rfl
      | some text =>
          have htop : (functionTop m f).text ++ ({ lines := comment f.attributes.desc } : Listing).text =
              ({ lines := (functionTop m f).lines ++ comment f.attributes.desc } : Listing).text := by
            simp [Listing.text, String.join_append]
          show some (OutputUnit.mk name ((functionTop m f).text ++ _)) = some ⟨name, _⟩
          rw [← htop, String.append_assoc]

theorem redescribed_functionUnit {m m' : Option StateMachine}
    (hm : m.map StateMachine.redact = m'.map StateMachine.redact) {f f' : Func}
    (hf : f.redact = f'.redact) (hP : f.attributes.Describes P) (hP' : f'.attributes.Describes P') :
    Option.Rel (OutputUnit.Redescribed P P') (functionUnit m f) (functionUnit m' f') := by
  have houtput : f.outputFile = f'.outputFile := eq_of_blind hf Func.outputFile fun _ => rfl
  have hbare := eq_of_blind hf Func.bareDefinition Func.bareDefinition_redact
  have htop : functionTop m f = functionTop m' f' := by
    rw [← functionTop_redact, hm, hf, functionTop_redact]
  have hsome := eq_of_blind hf (fun f => f.attributes.desc.isSome) fun _ => Option.isSome_map
  rw [functionUnit_eq, functionUnit_eq, houtput, hbare, htop]
  cases f'.outputFile with
  | none => exact .none
  | some name =>
      cases f'.bareDefinition with
      | none => exact .none
      | some text =>
          exact .some ⟨rfl, (functionTop m' f').lines, text, _, _, hP, hP', hsome, rfl, rfl⟩

/-! ### Types -/

theorem redescribed_typeUnits {d d' : TypeDef} (hd : d.redact = d'.redact)
    (hP : d.symbol.attributes.Describes P) (hP' : d'.symbol.attributes.Describes P') :
    List.Forall₂ (OutputUnit.Redescribed P P') (typeUnits d) (typeUnits d') := by
  have hexternal : d.symbol.isExternal = d'.symbol.isExternal :=
    eq_of_blind hd (fun d => d.symbol.isExternal) fun _ => rfl
  have hkind : d.symbol.kind = d'.symbol.kind :=
    eq_of_blind hd (fun d => d.symbol.kind) fun _ => rfl
  have hident : d.symbol.cIdent = d'.symbol.cIdent :=
    eq_of_blind hd (fun d => d.symbol.cIdent) fun _ => rfl
  have hincludes : d.includes = d'.includes := eq_of_blind hd TypeDef.includes fun _ => rfl
  have hmembers : d.members = d'.members := eq_of_blind hd TypeDef.members fun _ => rfl
  have hsome : d.symbol.attributes.desc.isSome = d'.symbol.attributes.desc.isSome :=
    eq_of_blind hd (fun d => d.symbol.attributes.desc.isSome) fun _ => Option.isSome_map
  have hstructure : (header d.symbol.cIdent (structureBody d)).Redescribed P P'
      (header d'.symbol.cIdent (structureBody d')) := by
    have hbody := fun l hl => structureBody_eq (l := l) d hl
    have hbody' := fun l hl => structureBody_eq (l := l) d' hl
    rw [← hident, ← hincludes, ← hmembers] at hbody'
    simp only [List.append_assoc] at hbody hbody'
    exact hident ▸ redescribed_header [] _ hP hP' hsome hbody hbody'
  have henumeration : ∀ values, (header d.symbol.cIdent (enumerationBody d values)).Redescribed P P'
      (header d'.symbol.cIdent (enumerationBody d' values)) := by
    intro values
    have hbody := fun l hl => enumerationBody_eq (l := l) d values hl
    have hbody' := fun l hl => enumerationBody_eq (l := l) d' values hl
    rw [← hident] at hbody'
    simp only [List.append_assoc] at hbody hbody'
    exact hident ▸ redescribed_header [] _ hP hP' hsome hbody hbody'
  unfold typeUnits
  rw [← hexternal, ← hkind]
  split_ifs
  · exact .nil
  · split
    · rename_i values _
      rw [← hident]
      rw [← hident] at henumeration
      exact .cons .refl (.cons (henumeration values) .nil)
    · exact .cons hstructure .nil

/-! ### Machines -/

theorem includes_redact (m : StateMachine) : m.redact.includes = m.includes := by
  have hfunctions : m.redact.functions = m.functions.map Func.redact := rfl
  unfold StateMachine.includes
  rw [hfunctions, show m.redact.types = m.types.map TypeDef.redact from rfl, List.filterMap_map,
    List.flatMap_map]
  simp only [Func.signatureHeaders_redact]
  rfl

theorem prototypes_redact (m : StateMachine) :
    m.redact.functions.map Func.prototype = m.functions.map Func.prototype := by
  rw [show m.redact.functions = m.functions.map Func.redact from rfl, List.map_map]
  exact List.map_congr_left fun f _ => f.prototype_redact

theorem redescribed_controllerUnit {m m' : StateMachine} (hm : m.redact = m'.redact)
    (hP : m.attributes.Describes P) (hP' : m'.attributes.Describes P') :
    (controllerUnit m).Redescribed P P' (controllerUnit m') := by
  have hcontroller : m.controller = m'.controller := eq_of_blind hm StateMachine.controller fun _ => rfl
  have hincludes : m.includes = m'.includes := eq_of_blind hm StateMachine.includes includes_redact
  have hprototypes : m.functions.map Func.prototype = m'.functions.map Func.prototype :=
    eq_of_blind hm (fun m => m.functions.map Func.prototype) prototypes_redact
  have hsome : m.attributes.desc.isSome = m'.attributes.desc.isSome :=
    eq_of_blind hm (fun m => m.attributes.desc.isSome) fun _ => Option.isSome_map
  have hbody := fun l hl => controllerBody_eq (l := l) m hl
  have hbody' := fun l hl => controllerBody_eq (l := l) m' hl
  rw [← hcontroller, ← hincludes, ← hprototypes] at hbody'
  simp only [List.append_assoc] at hbody hbody'
  unfold controllerUnit
  rw [← hcontroller]
  refine redescribed_header (m.includes.map includeLine ++ [""])
    (["class " ++ m.controller, "\x7b", "  public:"] ++
      ((m.functions.map Func.prototype).map (Listing.indented 1) ++ ["\x7d;"])) hP hP' hsome
    (fun l hl => ?_) fun l hl => ?_
  · rw [hbody l hl, List.append_assoc]
  · rw [hbody' l hl, List.append_assoc]

theorem redescribed_machineUnits {m m' : StateMachine} (hm : m.redact = m'.redact) (hP : m.Describes P)
    (hP' : m'.Describes P') :
    List.Forall₂ (OutputUnit.Redescribed P P') (machineUnits m) (machineUnits m') := by
  have hfunctions : m.functions.map Func.redact = m'.functions.map Func.redact :=
    congrArg StateMachine.functions hm
  have htypes : m.types.map TypeDef.redact = m'.types.map TypeDef.redact := congrArg StateMachine.types hm
  unfold machineUnits
  refine List.rel_append (.cons (redescribed_controllerUnit hm hP.attributes hP'.attributes) ?_) ?_
  · refine List.rel_flatMap (forall₂_of_map_eq htypes hP.types hP'.types) ?_
    rintro d d' ⟨hd, hdP, hdP'⟩
    exact redescribed_typeUnits hd hdP hdP'
  · refine List.rel_filterMap ?_ (forall₂_of_map_eq hfunctions hP.functions hP'.functions)
    rintro f f' ⟨hf, hfP, hfP'⟩
    exact redescribed_functionUnit (show (some m).map _ = (some m').map _ from congrArg some hm) hf hfP hfP'

/-! ### Outputs -/

theorem redescribed_insertByName {u v : OutputUnit} (huv : u.Redescribed P P' v)
    {us vs : List OutputUnit} (h : List.Forall₂ (OutputUnit.Redescribed P P') us vs) :
    List.Forall₂ (OutputUnit.Redescribed P P') (insertByName u us) (insertByName v vs) := by
  induction h with
  | nil => exact .cons huv .nil
  | cons hab htail ih =>
      unfold insertByName
      rw [huv.name, hab.name]
      split_ifs
      · exact .cons hab ih
      · exact .cons huv (.cons hab htail)

/-- Units are sorted by name, so by nothing that descriptions are in. -/
theorem redescribed_sortByName {us vs : List OutputUnit}
    (h : List.Forall₂ (OutputUnit.Redescribed P P') us vs) :
    List.Forall₂ (OutputUnit.Redescribed P P') (sortByName us) (sortByName vs) := by
  induction h with
  | nil => exact .nil
  | cons huv _ ih => exact redescribed_insertByName huv ih

end Emit

theorem Output.redescribed_units {o o' : Output} (ho : o.redact = o'.redact) (hP : o.Describes P)
    (hP' : o'.Describes P') : List.Forall₂ (OutputUnit.Redescribed P P') o.units o'.units := by
  have hfunctions : o.functions.map Func.redact = o'.functions.map Func.redact :=
    congrArg Output.functions ho
  have htypes : o.types.map TypeDef.redact = o'.types.map TypeDef.redact := congrArg Output.types ho
  have hmachines : o.machines.map StateMachine.redact = o'.machines.map StateMachine.redact :=
    congrArg Output.machines ho
  refine Emit.redescribed_sortByName (List.rel_append (List.rel_append ?_ ?_) ?_)
  · refine List.rel_filterMap ?_ (forall₂_of_map_eq hfunctions hP.functions hP'.functions)
    rintro f f' ⟨hf, hfP, hfP'⟩
    exact Emit.redescribed_functionUnit rfl hf hfP hfP'
  · refine List.rel_flatMap (forall₂_of_map_eq htypes hP.types hP'.types) ?_
    rintro d d' ⟨hd, hdP, hdP'⟩
    exact Emit.redescribed_typeUnits hd hdP hdP'
  · refine List.rel_flatMap (forall₂_of_map_eq hmachines hP.machines hP'.machines) ?_
    rintro m m' ⟨hm, hmP, hmP'⟩
    exact Emit.redescribed_machineUnits hm hmP hmP'

end units

/-! ### Where descriptions come from -/

namespace Decl

mutual

/-- The descriptions of a declaration and its members. -/
def descriptions : Decl → List String
  | .func d => d.attributes.desc.toList
  | .type d => d.attributes.desc.toList
  | .machine ⟨_, pairs, members, _⟩ => (Attributes.ofPairs pairs).desc.toList ++ descriptionsAll members

def descriptionsAll : List Decl → List String
  | [] => []
  | d :: ds => descriptions d ++ descriptionsAll ds

end

theorem mem_descriptionsAll {d : Decl} {ds : List Decl} (hd : d ∈ ds) {desc : String}
    (h : desc ∈ d.descriptions) : desc ∈ descriptionsAll ds := by
  induction ds with
  | nil => cases hd
  | cons e ds ih =>
      rw [descriptionsAll, List.mem_append]
      rcases List.mem_cons.mp hd with rfl | hd
      · exact .inl h
      · exact .inr (ih hd)

end Decl

namespace Turn

variable {P : String → Prop} {t : Turn} {ts : List Turn}

theorem describes_output {parent : Option String} (h : t.Answers parent)
    (hP : ∀ desc ∈ t.decl.descriptions, P desc) : (∀ f ∈ t.output.functions, f.attributes.Describes P) ∧
      ∀ d ∈ t.output.types, d.symbol.attributes.Describes P := by
  refine h.forall_output (fun d f hd _ m _ hf desc hdesc => hP desc ?_)
    fun d τ hd _ home hsymbol desc hdesc => hP desc ?_
  · have hattributes := (FuncDecl.toFunc_eq_ok hf).2.2.2.1
    have hsame : f.attributes.desc = d.attributes.desc := by
      rw [hattributes]
      split_ifs <;> rfl
    rw [hd, Decl.descriptions, Option.mem_toList, ← hsame]
    exact hdesc
  · rw [hsymbol] at hdesc
    rw [hd, Decl.descriptions, Option.mem_toList]
    exact hdesc

theorem describes_outputs {parent : Option String} (h : ∀ t ∈ ts, t.Answers parent)
    (hP : ∀ t ∈ ts, ∀ desc ∈ t.decl.descriptions, P desc) :
    (∀ f ∈ (outputs ts).functions, f.attributes.Describes P) ∧
      ∀ d ∈ (outputs ts).types, d.symbol.attributes.Describes P :=
  forall_outputs fun t ht => describes_output (h t ht) (hP t ht)

theorem describes_machine {table : SymbolTable} (ht : table.Sound) {d : MachineDecl Decl}
    {c : CompiledMachine} (hc : (d.compile table).1 = .ok c)
    (hP : ∀ desc ∈ (Decl.machine d).descriptions, P desc) : c.machine.Describes P := by
  obtain ⟨ident, pairs, members, location⟩ := d
  obtain ⟨hgains, -⟩ := MachineDecl.gains_compile ht _ hc
  obtain ⟨hdecls, hanswers, -⟩ := MachineDecl.turns_spec ht ⟨ident, pairs, members, location⟩
  rw [Decl.descriptions] at hP
  have hmembers : ∀ u ∈ MachineDecl.turns table ⟨ident, pairs, members, location⟩,
      ∀ desc ∈ u.decl.descriptions, P desc := by
    intro u hu desc hdesc
    have hmember : u.decl ∈ members := by
      rw [← show _ = members from hdecls]
      exact List.mem_map_of_mem hu
    exact hP desc (List.mem_append_right _ (Decl.mem_descriptionsAll hmember hdesc))
  obtain ⟨hfunctions, htypes⟩ := describes_outputs hanswers hmembers
  constructor
  · rw [hgains.attributes]
    exact fun desc hdesc => hP desc (List.mem_append_left _ (Option.mem_toList.mpr hdesc))
  · rw [hgains.functions]
    exact hfunctions
  · rw [hgains.types]
    exact htypes

theorem describes_machines (htables : ∀ t ∈ ts, t.table.Sound) (h : ∀ t ∈ ts, t.Answers none)
    (hP : ∀ t ∈ ts, ∀ desc ∈ t.decl.descriptions, P desc) :
    ∀ m ∈ (outputs ts).machines, m.Describes P := by
  intro m hm
  obtain ⟨t, ht, d, c, hdecl, -, rfl, hd⟩ := exists_of_mem_machines hm h
  have hdescriptions := hP t ht
  rw [hdecl] at hdescriptions
  exact describes_machine (htables t ht) hd hdescriptions

end Turn

namespace Session

variable {config config' : Config} {s t : Session} {ds es : List Decl}

/-- The descriptions in an output are those of its declarations. -/
theorem describes_compile (hs : s.Sound) (ds : List Decl) :
    (Turn.outputs (s.turns ds)).Describes (· ∈ Decl.descriptionsAll ds) := by
  obtain ⟨hdecls, htables, hanswers, -⟩ := turns_spec hs ds
  have hP : ∀ u ∈ s.turns ds, ∀ desc ∈ u.decl.descriptions, desc ∈ Decl.descriptionsAll ds := by
    intro u hu desc hdesc
    refine Decl.mem_descriptionsAll ?_ hdesc
    rw [← hdecls]
    exact List.mem_map_of_mem hu
  obtain ⟨hfunctions, htypes⟩ := Turn.describes_outputs hanswers hP
  exact ⟨hfunctions, htypes, Turn.describes_machines htables hanswers hP⟩

/-- Lists of declarations that differ in the texts of descriptions alone, the same declarations having one,
compile alike in sessions that do: the diagnostics are the same, and so are the units by name and order, each
with at most one comment in it that has another description. So the units are the same without their comment
lines, if no description has a line break. -/
theorem descriptions_stay (hs : Reached config s) (ht : Reached config' t) (hst : s.redact = t.redact)
    (hds : ds.map Decl.redact = es.map Decl.redact) :
    ∃ s' out t' out', s.compile ds = .ok (s', out) ∧ t.compile es = .ok (t', out') ∧
      s'.redact = t'.redact ∧ out.diagnostics = out'.diagnostics ∧
      out.units.map OutputUnit.name = out'.units.map OutputUnit.name ∧
      List.Forall₂ (OutputUnit.Redescribed (· ∈ Decl.descriptionsAll ds) (· ∈ Decl.descriptionsAll es))
        out.units out'.units ∧
      ((∀ desc ∈ Decl.descriptionsAll ds ++ Decl.descriptionsAll es, '\n' ∉ desc.toList) →
        out.units.map (fun u => (u.name, Text.code u.contents)) =
          out'.units.map fun u => (u.name, Text.code u.contents)) := by
  obtain ⟨s', hc, -⟩ := compile_eq hs.sound ds
  obtain ⟨t', hc', -⟩ := compile_eq ht.sound es
  obtain ⟨hsession, hout⟩ := redact_eq_of_redact_eq hst hds hc hc'
  have hunits := Output.redescribed_units hout (describes_compile hs.sound ds) (describes_compile ht.sound es)
  refine ⟨s', _, t', _, hc, hc', hsession, eq_of_blind hout Output.diagnostics fun _ => rfl, ?_, hunits,
    fun hbreak => ?_⟩
  · rw [← List.forall₂_eq_eq_eq, List.forall₂_map_left_iff, List.forall₂_map_right_iff]
    exact hunits.imp fun _ _ h => h.name
  · rw [← List.forall₂_eq_eq_eq, List.forall₂_map_left_iff, List.forall₂_map_right_iff]
    refine hunits.imp fun u v h => Prod.ext h.name (h.code_eq ?_ ?_)
    · exact fun desc hdesc => hbreak desc (List.mem_append_left _ hdesc)
    · exact fun desc hdesc => hbreak desc (List.mem_append_right _ hdesc)

/-- Pairs with this description and nothing else. -/
def described (text : String) : Pairs := ⟨[("desc", text)], List.pairwise_singleton _ _⟩

/-- An enumeration, a function, and a machine with a structure in it, all with this description. -/
def labelled (text : String) : List Decl := [
  .type { ident := "State", body := .enumeration ["I", "M"], pairs := described text },
  .func {
    returnType := { ident := "State" }, ident := "next", pairs := described text
    formals := [{ type := { ident := "State" }, ident := "state" }]
    statements := some [.ret (some (.var "state" {})) {}] },
  .machine {
    ident := "L1", pairs := described text
    members := [.type { ident := "Entry", body := .record [], pairs := described text }] }]

theorem redact_described (text other : String) : (described text).redact = (described other).redact := by
  simp [described, Pairs.redact]

theorem redact_labelled (text other : String) :
    (labelled text).map Decl.redact = (labelled other).map Decl.redact := by
  simp only [labelled, List.map_cons, List.map_nil, Decl.redact, Decl.redactAll, FuncDecl.redact,
    TypeDecl.redact, redact_described text other]

/-- With other descriptions the units are others, but not without their comment lines. -/
theorem descriptions_stay_labelled : ∃ s₀ s out t out', start .prelude = .ok s₀ ∧
    s₀.compile (labelled "the next state") = .ok (s, out) ∧
    s₀.compile (labelled "*/ int x; // \\") = .ok (t, out') ∧
    out.hasErrors = false ∧ out.units ≠ out'.units ∧
    out.units.map OutputUnit.name =
      ["L1_Controller.hh", "L1_Entry.hh", "State.cc", "State.hh", "next.cc"] ∧
    out.units.map (fun u => (u.name, Text.code u.contents)) =
      out'.units.map fun u => (u.name, Text.code u.contents) := by
  have hrun : ((start .prelude).toOption.bind fun s =>
      (s.compile (labelled "the next state")).toOption.bind fun r =>
      (s.compile (labelled "*/ int x; // \\")).toOption.map fun r' => decide (
        r.2.hasErrors = false ∧ r.2.units ≠ r'.2.units ∧ r.2.units.map OutputUnit.name =
          ["L1_Controller.hh", "L1_Entry.hh", "State.cc", "State.hh", "next.cc"])) = some true := by
    decide +kernel
  obtain ⟨s₀, hs₀, hrun⟩ := Option.bind_eq_some_iff.mp hrun
  obtain ⟨⟨s, out⟩, hc, hrun⟩ := Option.bind_eq_some_iff.mp hrun
  obtain ⟨⟨t, out'⟩, hc', hrun⟩ := Option.map_eq_some_iff.mp hrun
  rw [toOption_eq_some] at hs₀ hc hc'
  obtain ⟨herrors, hunits, hnames⟩ := of_decide_eq_true hrun
  obtain ⟨s', o, t', o', ho, ho', -, -, -, -, hcode⟩ :=
    descriptions_stay (.start hs₀) (.start hs₀) rfl (redact_labelled "the next state" "*/ int x; // \\")
  rw [hc] at ho
  rw [hc'] at ho'
  cases ho
  cases ho'
  exact ⟨s₀, s, out, t, out', hs₀, hc, hc', herrors, hunits, hnames, hcode (by decide +kernel)⟩

/-- A structure with this description. -/
def labelledState (text : String) : Decl :=
  .type { ident := "State", body := .record [], pairs := described text }

/-- What stands after a line break in a description is code. -/
theorem description_leaves_comment : ∃ s₀ s out t out', start .prelude = .ok s₀ ∧
    (labelledState "first").redact = (labelledState "first\nint x;").redact ∧
    s₀.compile [labelledState "first"] = .ok (s, out) ∧
    s₀.compile [labelledState "first\nint x;"] = .ok (t, out') ∧
    out.hasErrors = false ∧ out'.hasErrors = false ∧
    (∀ u ∈ out.units, "int x;".toList ∉ Text.code u.contents) ∧
    ∃ u ∈ out'.units, u.name = "State.hh" ∧ "int x;".toList ∈ Text.code u.contents := by
  have hrun : ((start .prelude).toOption.bind fun s =>
      (s.compile [labelledState "first"]).toOption.bind fun r =>
      (s.compile [labelledState "first\nint x;"]).toOption.map fun r' => decide (
        r.2.hasErrors = false ∧ r'.2.hasErrors = false ∧
        (∀ u ∈ r.2.units, "int x;".toList ∉ Text.code u.contents) ∧
        ∃ u ∈ r'.2.units, u.name = "State.hh" ∧ "int x;".toList ∈ Text.code u.contents)) = some true := by
    decide +kernel
  obtain ⟨s₀, hs₀, hrun⟩ := Option.bind_eq_some_iff.mp hrun
  obtain ⟨⟨s, out⟩, hc, hrun⟩ := Option.bind_eq_some_iff.mp hrun
  obtain ⟨⟨t, out'⟩, hc', hrun⟩ := Option.map_eq_some_iff.mp hrun
  rw [toOption_eq_some] at hs₀ hc hc'
  obtain ⟨herrors, herrors', hout, hout'⟩ := of_decide_eq_true hrun
  have hredact : (labelledState "first").redact = (labelledState "first\nint x;").redact := by
    simp only [labelledState, Decl.redact, TypeDecl.redact, redact_described "first" "first\nint x;"]
  exact ⟨s₀, s, out, t, out', hs₀, hredact, hc, hc', herrors, herrors', hout, hout'⟩

end Session

end Coherence
