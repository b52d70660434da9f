/-!
# Finite maps over names

A `NameMap β` gives each of finitely many names one value and lists its names in increasing order,
so whatever is derived from one comes out in one order. A `NameSet` is such a map without values.

Order and absence of repetitions are part of the type: `insert` keeps them (`pairwise_insertEntry`).
Building a set neither loses nor makes up a name (`NameSet.mem_names_ofNames`).
-/

namespace Coherence

namespace NameMap

variable {β : Type}

/-- Puts an entry at its place in a list sorted by name; an entry of the same name gives way. -/
def insertEntry (name : String) (value : β) : List (String × β) → List (String × β)
  | [] => [(name, value)]
  | (n, v) :: rest =>
    if name < n then (name, value) :: (n, v) :: rest
    else if n < name then (n, v) :: insertEntry name value rest
    else (name, value) :: rest

theorem eq_of_not_lt {a b : String} (h₁ : ¬a < b) (h₂ : ¬b < a) : a = b :=
  String.le_antisymm (String.not_lt.1 h₂) (String.not_lt.1 h₁)

theorem mem_map_fst_insertEntry {name x : String} {value : β} {l : List (String × β)} :
    x ∈ (insertEntry name value l).map Prod.fst ↔ x = name ∨ x ∈ l.map Prod.fst := by
  induction l with
  | nil => simp [insertEntry]
  | cons e rest ih =>
    obtain ⟨n, v⟩ := e
    unfold insertEntry
    split
    · simp
    · split
      · simp only [List.map_cons, List.mem_cons, ih]
        constructor
        · rintro (h | h | h) <;> simp [h]
        · rintro (h | h | h) <;> simp [h]
      · rename_i h₁ h₂
        have : n = name := eq_of_not_lt h₂ h₁
        subst this
        simp

theorem pairwise_insertEntry {name : String} {value : β} {l : List (String × β)}
    (h : (l.map Prod.fst).Pairwise (· < ·)) :
    ((insertEntry name value l).map Prod.fst).Pairwise (· < ·) := by
  induction l with
  | nil => simp [insertEntry]
  | cons e rest ih =>
    obtain ⟨n, v⟩ := e
    rw [List.map_cons, List.pairwise_cons] at h
    obtain ⟨hn, hrest⟩ := h
    unfold insertEntry
    split
    · rename_i hlt
      simp only [List.map_cons, List.pairwise_cons, List.mem_cons]
      refine ⟨?_, hn, hrest⟩
      rintro x (rfl | hx)
      · exact hlt
      · exact String.lt_trans hlt (hn x hx)
    · split
      · rename_i hlt
        simp only [List.map_cons, List.pairwise_cons]
        refine ⟨?_, ih hrest⟩
        intro x hx
        rcases mem_map_fst_insertEntry.1 hx with rfl | hx
        · exact hlt
        · exact hn x hx
      · rename_i h₁ h₂
        have : n = name := eq_of_not_lt h₂ h₁
        subst this
        simp only [List.map_cons, List.pairwise_cons]
        exact ⟨hn, hrest⟩

/-- There is one way to list names in increasing order. -/
theorem eq_of_pairwise_lt {l l' : List String} (h : l.Pairwise (· < ·)) (h' : l'.Pairwise (· < ·))
    (hmem : ∀ n, n ∈ l ↔ n ∈ l') : l = l' := by
  have hne : ∀ {a b : String}, a < b → a ≠ b := by
    rintro a b hlt rfl
    exact String.lt_irrefl a hlt
  have hperm : l.Perm l' := (List.perm_ext_iff_of_nodup (h.imp hne) (h'.imp hne)).mpr hmem
  refine hperm.eq_of_pairwise ?_ h h'
  intro a b _ _ hab hba
  exact absurd hba (String.lt_asymm hab)

end NameMap

/-- A finite map from names to values, its entries sorted by name. -/
structure NameMap (β : Type) where
  entries : List (String × β) := []
  sorted : (entries.map Prod.fst).Pairwise (· < ·) := by exact List.Pairwise.nil
deriving DecidableEq

namespace NameMap

variable {β : Type}

def empty : NameMap β := {}

instance : Inhabited (NameMap β) := ⟨empty⟩

/-- The names of a map, in increasing order. -/
def names (m : NameMap β) : List String := m.entries.map Prod.fst

/-- The value of a name. -/
def get? (m : NameMap β) (name : String) : Option β := m.entries.lookup name

def contains (m : NameMap β) (name : String) : Bool := m.names.contains name

/-- The map with `name` sent to `value`, whatever it was sent to before. -/
def insert (m : NameMap β) (name : String) (value : β) : NameMap β :=
  ⟨insertEntry name value m.entries, pairwise_insertEntry m.sorted⟩

theorem names_pairwise (m : NameMap β) : m.names.Pairwise (· < ·) := m.sorted

theorem mem_names_insert {m : NameMap β} {name x : String} {value : β} :
    x ∈ (m.insert name value).names ↔ x = name ∨ x ∈ m.names := mem_map_fst_insertEntry

theorem contains_iff {m : NameMap β} {name : String} : m.contains name = true ↔ name ∈ m.names := by
  simp [contains]

/-- The map of a list of entries; of two entries with one name the later one counts. -/
def ofList (entries : List (String × β)) : NameMap β :=
  entries.foldl (fun m e => m.insert e.1 e.2) empty

end NameMap

/-- A finite set of names, listed in increasing order. -/
abbrev NameSet := NameMap Unit

namespace NameSet

def add (s : NameSet) (name : String) : NameSet := s.insert name ()

theorem mem_names_add {s : NameSet} {name x : String} :
    x ∈ (s.add name).names ↔ x = name ∨ x ∈ s.names := NameMap.mem_names_insert

def addAll (s : NameSet) (names : List String) : NameSet := names.foldl add s

theorem mem_names_addAll {s : NameSet} {names : List String} {x : String} :
    x ∈ (s.addAll names).names ↔ x ∈ names ∨ x ∈ s.names := by
  induction names generalizing s with
  | nil => simp [addAll]
  | cons n rest ih =>
    have : s.addAll (n :: rest) = (s.add n).addAll rest := rfl
    rw [this, ih, mem_names_add, List.mem_cons]
    constructor
    · rintro (h | h | h) <;> simp [h]
    · rintro ((h | h) | h) <;> simp [h]

/-- The set of the names of a list. -/
def ofNames (names : List String) : NameSet := addAll NameMap.empty names

theorem mem_names_ofNames {names : List String} {x : String} :
    x ∈ (ofNames names).names ↔ x ∈ names := by
  rw [ofNames, mem_names_addAll]
  simp [NameMap.empty, NameMap.names]

/-- Neither the order nor the repetitions in a list show in its set. -/
theorem names_ofNames_congr {names names' : List String} (h : ∀ n, n ∈ names ↔ n ∈ names') :
    (ofNames names).names = (ofNames names').names := by
  refine NameMap.eq_of_pairwise_lt (NameMap.names_pairwise _) (NameMap.names_pairwise _) fun n => ?_
  rw [mem_names_ofNames, mem_names_ofNames, h]

end NameSet

end Coherence
