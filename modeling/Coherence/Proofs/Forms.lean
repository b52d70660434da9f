import Mathlib.Data.List.Forall2
import Coherence.Json.Decoder
import Coherence.Proofs.Documents
import Coherence.Syntax.Writer
/-!
# Forms of values

A value may be written in several ways: the members of an object in any order, others beside them, a record
as a list, a field left out that has its default. A `Form` says which documents write a value, and how many
brackets they may open, not counting what is passed over. A decoder takes a form if it reads the value off
all of these documents (`Decoder.Takes`): by one rule for lists, maps, variants and records each.
-/

namespace Coherence

namespace Json

theorem filter_name_eq_nil {members : List (String × Json)} {name : String}
    (h : ∀ m ∈ members, m.1 ≠ name) : members.filter (·.1 == name) = [] :=
  List.filter_eq_nil_iff.mpr fun m hm => by
    rw [beq_iff_eq]
    exact h m hm

theorem lookup_eq_filter (members : List (String × Json)) (name : String) :
    members.lookup name = ((members.filter (·.1 == name)).head?).map Prod.snd := by
  induction members with
  | nil => rfl
  | cons m members ih =>
      rw [List.lookup_cons, List.filter_cons]
      by_cases h : m.1 = name
      · rw [h, beq_self_eq_true, if_pos rfl]
        rfl
      · rw [beq_eq_false_iff_ne.mpr h, beq_eq_false_iff_ne.mpr fun heq => h heq.symm,
          if_neg Bool.false_ne_true, ih]

end Json

namespace NameMap

variable {β : Type}

theorem perm_insertEntry {name : String} {value : β} {l : List (String × β)}
    (h : name ∉ l.map Prod.fst) : (insertEntry name value l).Perm ((name, value) :: l) := by
  induction l with
  | nil => exact .refl _
  | cons e l ih =>
      obtain ⟨n, v⟩ := e
      obtain ⟨hne, hl⟩ := not_or.mp (mt List.mem_cons.mpr h)
      unfold insertEntry
      split
      · exact .refl _
      split
      · exact ((ih hl).cons (n, v)).trans (.swap _ _ l)
      · rename_i hlt hgt
        exact absurd (eq_of_not_lt hlt hgt) hne

theorem perm_entries_foldl_insert {m : NameMap β} {l : List (String × β)}
    (h : ((m.entries ++ l).map Prod.fst).Nodup) :
    (l.foldl (fun m e => m.insert e.1 e.2) m).entries.Perm (m.entries ++ l) := by
  induction l generalizing m with
  | nil => rw [List.append_nil]; exact .refl _
  | cons e l ih =>
      have hmiddle : (m.entries ++ e :: l).Perm (e :: (m.entries ++ l)) := List.perm_middle
      have hnodup := (hmiddle.map Prod.fst).nodup_iff.mp h
      have hnew : e.1 ∉ m.entries.map Prod.fst := by
        intro he
        rw [List.map_cons, List.map_append] at hnodup
        exact (List.nodup_cons.mp hnodup).1 (List.mem_append_left _ he)
      have hinsert : ((m.insert e.1 e.2).entries ++ l).Perm (e :: (m.entries ++ l)) :=
        (perm_insertEntry hnew).append_right l
      rw [List.foldl_cons]
      exact (ih ((hinsert.map Prod.fst).nodup_iff.mpr hnodup)).trans (hinsert.trans hmiddle.symm)

/-- The entries of a map make up the map in any order. -/
theorem ofList_eq_of_perm {m : NameMap β} {l : List (String × β)} (h : l.Perm m.entries) :
    ofList l = m := by
  have hne : ∀ {a b : String}, a < b → a ≠ b := by
    rintro a b hlt rfl
    exact String.lt_irrefl a hlt
  have hnodup : (l.map Prod.fst).Nodup := (h.map Prod.fst).nodup_iff.mpr (m.sorted.imp hne)
  have hperm : (ofList l).entries.Perm m.entries := (perm_entries_foldl_insert hnodup).trans h
  have hentries : (ofList l).entries = m.entries := by
    refine hperm.eq_of_pairwise ?_ (List.pairwise_map.mp (ofList l).sorted)
      (List.pairwise_map.mp m.sorted)
    intro a b _ _ hab hba
    exact absurd hba (String.lt_asymm hab)
  generalize ofList l = m' at hentries
  cases m
  cases m'
  cases hentries
  rfl

end NameMap

/-- The ways to write a value: the documents that do, if what is kept of one may open `room` brackets. -/
abbrev Form : Type := (room : Nat) → Json → Prop

namespace Form

/-- A field of a record: its name, the ways to write its value, and whether it may be left out. -/
structure Column where
  name : String
  form : Form
  omissible : Prop

/-- One way to write a value. -/
inductive exactly (j : Json) : Form
  | mk {room} : exactly j room j

def optional : Option Form → Form
  | some form => form
  | none => exactly .null

/-- A list, with the ways to write its items. -/
inductive list (forms : List Form) : Form
  | mk {room items} : List.Forall₂ (fun form j => form room j) forms items →
      list forms (room + 1) (.array items)

/-- The pairs of a declaration, in any order. -/
inductive pairs (p : Pairs) : Form
  | mk {room} {entries : List (String × String)} : entries.Perm p.entries →
      pairs p (room + 1) (.object (entries.map fun e => (e.1, .string e.2)))

/-- A variant without data: its name, or an object with nothing under this name. -/
inductive plain (name : String) : Form
  | name {room} : plain name room (.string name)
  | object {room} : plain name (room + 1) (.object [(name, .null)])

/-- A variant with data. -/
inductive variant (name : String) (form : Form) : Form
  | mk {room j} : form room j → variant name form (room + 1) (.object [(name, j)])

/-- The members are the fields of a record in order, but for some that may be left out. -/
inductive Fields (room : Nat) : List Column → List (String × Json) → Prop
  | nil : Fields room [] []
  | given {column columns j members} : column.form room j → Fields room columns members →
      Fields room (column :: columns) ((column.name, j) :: members)
  | omitted {column columns members} : column.omissible → Fields room columns members →
      Fields room (column :: columns) members

/-- The items are the first fields of a record in order; the others may be left out. -/
inductive Items (room : Nat) : List Column → List Json → Prop
  | omitted {columns} : (∀ column ∈ columns, column.omissible) → Items room columns []
  | given {column columns j items} : column.form room j → Items room columns items →
      Items room (column :: columns) (j :: items)

/-- A record: an object with its fields and any other members in any order, or the list of its fields. -/
inductive record (columns : List Column) : Form
  | object {room members fields others} (hfields : Fields room columns fields)
      (hothers : ∀ m ∈ others, m.1 ∉ columns.map Column.name) (hperm : members.Perm (fields ++ others)) :
      record columns (room + 1) (.object members)
  | list {room items} (hitems : Items room columns items) : record columns (room + 1) (.array items)

/-! ### Fields -/

namespace Column

def required (name : String) (form : Form) : Column := ⟨name, form, False⟩

/-- What is found of the field: its value in one of the forms, or nothing if it may be left out. -/
def Gives (column : Column) (room : Nat) : Option Json → Prop
  | some j => column.form room j
  | none => column.omissible

end Column

variable {room : Nat} {columns : List Column}

/-- What is found of the fields in a list. -/
theorem Items.gives {items : List Json} (h : Items room columns items) :
    items.length ≤ columns.length ∧
      List.Forall₂ (fun column c => column.Gives room c) columns
        (items.map some ++ List.replicate (columns.length - items.length) none) := by
  induction h with
  | @omitted columns h =>
      refine ⟨Nat.zero_le _, ?_⟩
      show List.Forall₂ _ columns (List.replicate columns.length none)
      induction columns with
      | nil => exact .nil
      | cons column columns ih =>
          obtain ⟨hcolumn, hcolumns⟩ := List.forall_mem_cons.mp h
          exact .cons hcolumn (ih hcolumns)
  | given hj _ ih =>
      obtain ⟨hle, hgives⟩ := ih
      refine ⟨Nat.succ_le_succ hle, ?_⟩
      rw [List.length_cons, List.length_cons, Nat.add_sub_add_right]
      exact .cons hj hgives

theorem Fields.name_mem {fields : List (String × Json)} (h : Fields room columns fields) :
    ∀ m ∈ fields, m.1 ∈ columns.map Column.name := by
  induction h with
  | nil => exact nofun
  | given _ _ ih =>
      refine List.forall_mem_cons.mpr ⟨List.mem_cons_self, fun m hm => List.mem_cons_of_mem _ (ih m hm)⟩
  | omitted _ _ ih => exact fun m hm => List.mem_cons_of_mem _ (ih m hm)

/-- What is found of a field among the fields of an object. -/
theorem Fields.gives {fields : List (String × Json)} (h : Fields room columns fields)
    (hnodup : (columns.map Column.name).Nodup) : ∀ column ∈ columns, ∃ c : Option Json,
      column.Gives room c ∧ fields.filter (·.1 == column.name) = (c.map (column.name, ·)).toList := by
  induction h with
  | nil => exact nofun
  | @given column columns j fields hj hfields ih =>
      obtain ⟨hname, hnodup⟩ := List.nodup_cons.mp hnodup
      refine List.forall_mem_cons.mpr ⟨⟨some j, hj, ?_⟩, fun column' hcolumn' => ?_⟩
      · have hnone : fields.filter (·.1 == column.name) = [] := by
          refine Json.filter_name_eq_nil fun m hm heq => hname ?_
          rw [← heq]
          exact hfields.name_mem m hm
        rw [List.filter_cons, if_pos (beq_self_eq_true column.name), hnone]
        rfl
      · have hne : ¬(column.name == column'.name) = true := by
          rw [beq_iff_eq]
          intro heq
          rw [heq] at hname
          exact hname (List.mem_map_of_mem hcolumn')
        rw [List.filter_cons, if_neg hne]
        exact ih hnodup column' hcolumn'
  | @omitted column columns fields homissible hfields ih =>
      obtain ⟨hname, hnodup⟩ := List.nodup_cons.mp hnodup
      refine List.forall_mem_cons.mpr ⟨⟨none, homissible, ?_⟩, ih hnodup⟩
      refine Json.filter_name_eq_nil fun m hm heq => hname ?_
      rw [← heq]
      exact hfields.name_mem m hm

/-! ### Forms of a document -/

/-- The document is of the form, if as many brackets may be opened as it has nested. -/
def Covers (form : Form) (j : Json) : Prop := ∀ room, j.nesting ≤ room → form room j

theorem exists_room {n room : Nat} (h : n + 1 ≤ room) : ∃ r, room = r + 1 ∧ n ≤ r :=
  ⟨room - 1, by omega, by omega⟩

theorem covers_exactly (j : Json) : (exactly j).Covers j := fun _ _ => .mk

theorem covers_list {forms : List Form} {items : List Json} (h : List.Forall₂ Covers forms items) :
    (list forms).Covers (.array items) := by
  intro room hroom
  rw [Json.nesting] at hroom
  obtain ⟨room, rfl, hle⟩ := exists_room hroom
  clear hroom
  refine .mk ?_
  induction h with
  | nil => exact .nil
  | cons hj _ ih =>
      rw [Json.nestingOfItems] at hle
      obtain ⟨hj', hrest⟩ := Nat.max_le.mp hle
      exact .cons (hj room hj') (ih hrest)

theorem covers_pairs (p : Pairs) : (pairs p).Covers (.ofPairs p) := by
  intro room hroom
  rw [Json.ofPairs, Json.nesting] at hroom
  obtain ⟨room, rfl, -⟩ := exists_room hroom
  exact .mk (.refl _)

theorem covers_plain (name : String) : (plain name).Covers (.string name) := fun _ _ => .name

theorem Covers.variant {form : Form} {j : Json} (h : form.Covers j) (name : String) :
    (Form.variant name form).Covers (.variant name j) := by
  intro room hroom
  rw [Json.variant, Json.nesting, Json.nestingOfMembers, Json.nestingOfMembers, Nat.max_zero] at hroom
  obtain ⟨room, rfl, hle⟩ := exists_room hroom
  exact .mk (h room hle)

theorem covers_record {columns : List Column} {members : List (String × Json)}
    (h : List.Forall₂ (fun column m => m.1 = column.name ∧ column.form.Covers m.2) columns members) :
    (record columns).Covers (.object members) := by
  intro room hroom
  rw [Json.nesting] at hroom
  obtain ⟨room, rfl, hle⟩ := exists_room hroom
  have hfields : Fields room columns members := by
    clear hroom
    induction h with
    | nil => exact .nil
    | @cons column m columns members hm _ ih =>
        obtain ⟨hname, hj⟩ := hm
        obtain ⟨name, j⟩ := m
        rw [Json.nestingOfMembers] at hle
        obtain ⟨hj', hrest⟩ := Nat.max_le.mp hle
        subst hname
        exact .given (hj room hj') (ih hrest)
  refine .object hfields (List.forall_mem_nil _) ?_
  rw [List.append_nil]

end Form

namespace Decoder

open Form (Column)

theorem columns?_record {columns : List Column} (hnodup : (columns.map Column.name).Nodup) {room : Nat}
    {j : Json} (h : Form.record columns (room + 1) j) :
    ∃ cs, columns? (columns.map Column.name) j = some cs ∧
      List.Forall₂ (fun column c => column.Gives room c) columns cs := by
  cases h with
  | list hitems =>
      obtain ⟨hle, hgives⟩ := hitems.gives
      refine ⟨_, ?_, hgives⟩
      rw [columns?, List.length_map, if_pos hle]
  | @object _ members fields others hfields hothers hperm =>
      -- Order and other members aside, an object has the members of a name that the fields have.
      have hfound : ∀ column ∈ columns, ∃ c : Option Json, column.Gives room c ∧
          members.filter (·.1 == column.name) = (c.map (column.name, ·)).toList := by
        intro column hcolumn
        obtain ⟨c, hgives, hfilter⟩ := hfields.gives hnodup column hcolumn
        have hnone : others.filter (·.1 == column.name) = [] := by
          refine Json.filter_name_eq_nil fun m hm heq => hothers m hm ?_
          rw [heq]
          exact List.mem_map_of_mem hcolumn
        have hsame := hperm.filter (·.1 == column.name)
        rw [List.filter_append, hnone, List.append_nil, hfilter] at hsame
        refine ⟨c, hgives, ?_⟩
        cases c with
        | none => exact hsame.eq_nil
        | some v => exact List.perm_singleton.mp hsame
      refine ⟨columns.map fun column => members.lookup column.name, ?_, ?_⟩
      · have honce : ((columns.map Column.name).all fun f =>
            (members.filter fun m => m.1 == f).length ≤ 1) = true := by
          refine List.all_eq_true.mpr fun f hf => decide_eq_true ?_
          obtain ⟨column, hcolumn, rfl⟩ := List.mem_map.mp hf
          obtain ⟨c, -, hfilter⟩ := hfound column hcolumn
          rw [hfilter]
          cases c with
          | none => exact Nat.zero_le _
          | some v => exact Nat.le_refl _
        rw [columns?, if_pos honce, List.map_map]
        rfl
      · refine List.forall₂_map_right_iff.mpr (List.forall₂_same.mpr fun column hcolumn => ?_)
        obtain ⟨c, hgives, hfilter⟩ := hfound column hcolumn
        rw [Json.lookup_eq_filter, hfilter]
        cases c with
        | none => exact hgives
        | some v => exact hgives

/-! ### Decoders -/

variable {α β : Type} {d : Decoder α} {form : Form} {x : α} {limit : Nat}

/-- The decoder reads the value off all documents of the form that open at most `limit` brackets. -/
def Takes (d : Decoder α) (form : Form) (x : α) (limit : Nat) : Prop :=
  ∀ room ≤ limit, ∀ j, form room j → d room j = some x

theorem takes_string (s : String) : string.Takes (.exactly (.string s)) s limit := by
  rintro room - _ ⟨⟩
  rfl

theorem takes_bool (b : Bool) : bool.Takes (.exactly (.bool b)) b limit := by
  rintro room - _ ⟨⟩
  rfl

theorem takes_int64 (n : Int64) : int64.Takes (.exactly (.number n.toInt)) n limit := by
  rintro room - _ ⟨⟩
  show (if Int64.minValue.toInt ≤ n.toInt ∧ n.toInt ≤ Int64.maxValue.toInt then
    Option.some (Int64.ofInt n.toInt) else none) = _
  rw [if_pos ⟨Int64.minValue_le_toInt n, Int64.toInt_le n⟩, Int64.ofInt_toInt]

theorem takes_uint32 (n : UInt32) : uint32.Takes (.exactly (.number n.toNat)) n limit := by
  rintro room - _ ⟨⟩
  show (if 0 ≤ (n.toNat : Int) ∧ (n.toNat : Int) < UInt32.size then
    Option.some (UInt32.ofNat (n.toNat : Int).toNat) else none) = _
  rw [if_pos ⟨Int.natCast_nonneg _, Int.ofNat_lt.mpr n.toNat_lt⟩, Int.toNat_natCast, UInt32.ofNat_toNat]

theorem Takes.map (h : d.Takes form x limit) (f : α → β) : (d.map f).Takes form (f x) limit := by
  intro room hroom j hj
  rw [Decoder.map, h room hroom j hj]
  rfl

theorem takes_none (d : Decoder α) : (optional d).Takes (.optional none) none limit := by
  rintro room - _ ⟨⟩
  rfl

theorem Takes.some (h : d.Takes form x limit) (hnull : ∀ room, ¬form room .null) :
    (optional d).Takes (.optional (Option.some form)) (some x) limit := by
  intro room hroom j hj
  rw [optional, h room hroom j hj]
  · rfl
  · rintro rfl
    exact hnull room hj

theorem takes_list {forms : List Form} {xs : List α}
    (h : List.Forall₂ (fun form x => d.Takes form x limit) forms xs) :
    (list d).Takes (.list forms) xs limit := by
  rintro _ hroom _ ⟨hitems⟩
  rename_i room items
  show items.mapM (d room) = Option.some xs
  induction hitems generalizing xs with
  | nil =>
      cases h
      rfl
  | cons hj _ ih =>
      obtain _ | ⟨htakes, hrest⟩ := h
      rw [List.mapM_cons, htakes room (Nat.le_of_succ_le hroom) _ hj, ih hrest]
      rfl

theorem takes_dictionary (p : Pairs) : (dictionary string).Takes (.pairs p) p limit := by
  rintro _ - _ ⟨hperm⟩
  rename_i room entries
  have hentries : (entries.map fun e => (e.1, Json.string e.2)).mapM
      (fun (m : String × Json) => (string room m.2).map (m.1, ·)) = Option.some entries :=
    Json.mapM_map_eq_some fun _ _ => rfl
  rw [dictionary, hentries, Option.map_some, NameMap.ofList_eq_of_perm hperm]

/-- A variant without data is read off its name and off the object. -/
theorem takes_plain {plain : List (String × α)} (loaded : List (String × Decoder α)) {name : String}
    (h : plain.lookup name = Option.some x) : (variant plain loaded).Takes (.plain name) x limit := by
  rintro _ - _ (_ | _)
  · rw [variant, h]
  · rw [variant, h, Option.some_or]

theorem takes_variant {plain : List (String × α)} {loaded : List (String × Decoder α)} {name : String}
    (hplain : plain.lookup name = none) (h : loaded.lookup name = Option.some d)
    (hd : d.Takes form x limit) : (variant plain loaded).Takes (.variant name form) x limit := by
  rintro _ hroom _ ⟨hj⟩
  rename_i room j
  have hread : d room j = Option.some x := hd room (Nat.le_of_succ_le hroom) j hj
  by_cases hnull : j = .null
  · subst hnull
    rw [variant, hplain, Option.none_or, h, Option.bind_some, hread]
  · rw [variant, h, Option.bind_some, hread]
    exact hnull

/-- A record is read if it is read off whatever is found of its fields. -/
theorem takes_record {fields : List String} {read : Nat → List (Option Json) → Option α}
    {columns : List Column} (hfields : columns.map Column.name = fields) (hnodup : fields.Nodup)
    (h : ∀ room < limit, ∀ cs, List.Forall₂ (fun column c => column.Gives room c) columns cs →
      read room cs = Option.some x) :
    (record fields read).Takes (.record columns) x limit := by
  subst hfields
  intro room hroom j hj
  cases room with
  | zero => cases hj
  | succ room =>
      obtain ⟨cs, hcs, hgives⟩ := columns?_record hnodup hj
      rw [record, hcs, Option.bind_some]
      exact h room hroom cs hgives

theorem Takes.required (h : d.Takes form x limit) {name : String} {room : Nat} {c : Option Json}
    (hc : (Column.required name form).Gives room c) (hroom : room ≤ limit) :
    required d room c = Option.some x := by
  cases c with
  | none => cases hc
  | some j => exact h room hroom j hc

/-- A field may be left out if its value is the default. -/
theorem Takes.defaulted (h : d.Takes form x limit) {name : String} {omissible : Prop} {default : α}
    {room : Nat} {c : Option Json} (hc : (Column.mk name form omissible).Gives room c)
    (homissible : omissible → x = default) (hroom : room ≤ limit) :
    defaulted default d room c = Option.some x := by
  cases c with
  | none => exact congrArg Option.some (homissible hc).symm
  | some j => exact h room hroom j hc

end Decoder

end Coherence
