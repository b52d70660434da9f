/-!
# Rosters

A `Roster α key` keeps items in the order of their arrival and finds them by the name that `key`
gives them. No two items have the same name: the later one is turned away (`Roster.add?`).
-/

namespace Coherence

/-- Items in the order of their arrival, with the position of each name. -/
structure Roster (α : Type) (key : α → String) where
  items : List α := []
  positions : List (String × Nat) := []
deriving DecidableEq

namespace Roster

variable {α : Type} {key : α → String}

def empty : Roster α key := {}

instance : Inhabited (Roster α key) := ⟨empty⟩

def contains (r : Roster α key) (name : String) : Bool := (r.positions.lookup name).isSome

/-- The item with this name, if there is one; the position kept for the name if no item is there. -/
def find (r : Roster α key) (name : String) : Except Nat (Option α) :=
  match r.positions.lookup name with
  | none => .ok none
  | some i =>
    match r.items[i]? with
    | some item => .ok (some item)
    | none => .error i

/-- The item with this name. -/
def get? (r : Roster α key) (name : String) : Option α :=
  match r.find name with
  | .ok item => item
  | .error _ => none

/-- Adds an item as the last one, unless its name is taken. -/
def add? (r : Roster α key) (item : α) : Option (Roster α key) :=
  if r.contains (key item) then none
  else some ⟨r.items ++ [item], (key item, r.items.length) :: r.positions⟩

def size (r : Roster α key) : Nat := r.items.length

/-! ### Rosters that are built by adding items -/

/-- The position kept for a name is that of an item of this name, every item has one, and no two
items have the same name. -/
structure Valid (r : Roster α key) : Prop where
  position : ∀ name i, r.positions.lookup name = some i → (r.items[i]?).map key = some name
  listed : ∀ item ∈ r.items, r.contains (key item) = true
  distinct : (r.items.map key).Nodup

theorem valid_empty : (empty : Roster α key).Valid :=
  ⟨by simp [empty], by simp [empty], by simp [empty]⟩

/-- What adding an item does. -/
theorem add?_eq_some {r r' : Roster α key} {item : α} :
    r.add? item = some r' ↔ r.contains (key item) = false ∧
      r' = ⟨r.items ++ [item], (key item, r.items.length) :: r.positions⟩ := by
  unfold add?
  cases r.contains (key item) <;> simp [eq_comm]

theorem contains_add? {r r' : Roster α key} {item : α} (h : r.add? item = some r')
    (name : String) : r'.contains name = (name == key item || r.contains name) := by
  obtain ⟨-, rfl⟩ := add?_eq_some.mp h
  unfold contains
  rw [List.lookup_cons]
  cases name == key item <;> rfl

theorem Valid.add? {r r' : Roster α key} {item : α} (hr : r.Valid) (h : r.add? item = some r') :
    r'.Valid := by
  have hcontains := contains_add? h
  obtain ⟨hfree, rfl⟩ := add?_eq_some.mp h
  refine ⟨fun name i hi => ?_, fun other hother => ?_, ?_⟩
  · rw [List.lookup_cons] at hi
    split at hi
    · rename_i heq
      cases hi
      simp [beq_iff_eq.mp heq]
    · have hpos := hr.position name i hi
      obtain ⟨found, hfound, -⟩ := Option.map_eq_some_iff.mp hpos
      have hlt := (List.getElem?_eq_some_iff.mp hfound).1
      rw [List.getElem?_append_left hlt]
      exact hpos
  · rw [hcontains, Bool.or_eq_true]
    rcases List.mem_append.mp hother with hmem | hmem
    · exact .inr (hr.listed other hmem)
    · rw [List.mem_singleton.mp hmem]
      exact .inl (beq_self_eq_true _)
  · rw [List.map_append, List.nodup_append]
    refine ⟨hr.distinct, by simp, ?_⟩
    intro name hname other hother heq
    obtain ⟨i, hi, rfl⟩ := List.mem_map.mp hname
    rw [List.map_singleton, List.mem_singleton] at hother
    have hlisted := hr.listed i hi
    rw [heq, hother, hfree] at hlisted
    cases hlisted

theorem Valid.contains_iff {r : Roster α key} (hr : r.Valid) {name : String} :
    r.contains name = true ↔ ∃ item ∈ r.items, key item = name := by
  constructor
  · intro h
    obtain ⟨i, hi⟩ := Option.isSome_iff_exists.mp h
    obtain ⟨item, hitem, hkey⟩ := Option.map_eq_some_iff.mp (hr.position name i hi)
    exact ⟨item, List.mem_of_getElem? hitem, hkey⟩
  · rintro ⟨item, hitem, rfl⟩
    exact hr.listed item hitem

/-- No position is past the last item. -/
theorem Valid.find {r : Roster α key} (hr : r.Valid) (name : String) :
    ∃ found, r.find name = .ok found := by
  unfold Roster.find
  cases hp : r.positions.lookup name with
  | none => exact ⟨none, rfl⟩
  | some i =>
      obtain ⟨item, hitem, -⟩ := Option.map_eq_some_iff.mp (hr.position name i hp)
      exact ⟨some item, by simp [hitem]⟩

/-- By its name the one item is found that has it. -/
theorem Valid.find_eq {r : Roster α key} (hr : r.Valid) (name : String) :
    r.find name = .ok (r.items.find? fun item => key item = name) := by
  unfold Roster.find
  cases hp : r.positions.lookup name with
  | none =>
      have hnone : r.items.find? (fun item => key item = name) = none := by
        rw [List.find?_eq_none]
        intro item hitem hkey
        have hlisted := hr.listed item hitem
        rw [of_decide_eq_true hkey, contains, hp] at hlisted
        cases hlisted
      simp only [hnone]
  | some i =>
      obtain ⟨item, hitem, hkey⟩ := Option.map_eq_some_iff.mp (hr.position name i hp)
      obtain ⟨hi, rfl⟩ := List.getElem?_eq_some_iff.mp hitem
      have hfound : r.items.find? (fun item => key item = name) = some r.items[i] := by
        rw [List.find?_eq_some_iff_getElem]
        refine ⟨decide_eq_true hkey, i, hi, rfl, fun j hj => ?_⟩
        -- An earlier item of this name would be a second one.
        have hne := List.pairwise_iff_getElem.mp hr.distinct j i (by simp; omega) (by simpa) hj
        rw [List.getElem_map, List.getElem_map, hkey] at hne
        simpa using hne
      simp only [hitem, hfound]

end Roster

end Coherence
