import Coherence.CompileError
/-!
# Symbol tables

A symbol table is a stack of frames. The outermost one holds the builtin types and everything
declared at top level; function bodies, blocks and machines open further ones. A name is looked up
from the innermost frame outwards, always together with a kind, and a frame binds a name of one kind
at most once (`SymbolTable.declare`). A frame that was opened and closed leaves nothing behind but
its mark in `opened`, so that no later frame is taken for it (`frames_close_push`).
-/

namespace Coherence

/-- One lexical frame: its symbols by name and kind, the last declared one first. -/
structure Frame where
  id : FrameId := {}
  symbols : List ((String × SymbolKind) × Symbol) := []
deriving DecidableEq, Inhabited

/-- The symbol that a frame binds to a name of a kind. -/
def Frame.find? (f : Frame) (name : String) (kind : SymbolKind) : Option Symbol :=
  f.symbols.lookup (name, kind)

/-- A stack of frames, never empty: the innermost one apart, the others from the inside out. -/
structure SymbolTable where
  top : Frame
  outer : List Frame := []
  /-- The owners of all frames opened so far. No two frames of one table ever get the same mark. -/
  opened : List (Option String) := [none]
  /-- The field types found so far, by type; what was found last comes first. -/
  fieldTypes : List (TypeSymbol.Key × List FieldType) := []
deriving DecidableEq

namespace SymbolTable

/-- The table with one frame that holds `void`. -/
def initial : SymbolTable := 
  { top := { symbols := [((TypeSymbol.voidName, .type), .type .void)] } }

instance : Inhabited SymbolTable := ⟨initial⟩

/-- The frames from the inside out. -/
def frames (t : SymbolTable) : List Frame := t.top :: t.outer

/-- The number of open frames; one when only the outermost one is open. -/
def depth (t : SymbolTable) : Nat := t.frames.length

/-! ### Frames -/

/-- Opens a frame, perhaps for a machine. -/
def push (t : SymbolTable) (owner : Option String := none) : SymbolTable :=
  { t with
    top := { id := ⟨owner, t.opened.count owner⟩ }
    outer := t.frames
    opened := owner :: t.opened }

/-- Closes the innermost frame with all its symbols. The outermost one cannot be closed. -/
def pop (t : SymbolTable) : Except CompileError SymbolTable :=
  match t.outer with
  | [] => .error (.unbalanced t.depth)
  | top :: outer => .ok { t with top, outer }

theorem pop_eq_ok {t u : SymbolTable} :
    t.pop = .ok u ↔ t.outer = u.frames ∧ u.opened = t.opened ∧ u.fieldTypes = t.fieldTypes := by
  unfold pop frames
  cases houter : t.outer with
  | nil => simp
  | cons f fs =>
      obtain ⟨top, outer, opened, fieldTypes⟩ := u
      simp only [Except.ok.injEq, mk.injEq, List.cons.injEq, and_assoc]
      constructor
      · rintro ⟨rfl, rfl, rfl, rfl⟩
        exact ⟨rfl, rfl, rfl, rfl⟩
      · rintro ⟨rfl, rfl, rfl, rfl⟩
        exact ⟨rfl, rfl, rfl, rfl⟩

theorem pop_eq_error {t : SymbolTable} {e : CompileError} :
    t.pop = .error e ↔ t.outer = [] ∧ e = .unbalanced t.depth := by
  unfold pop
  cases t.outer <;> simp [eq_comm]

theorem depth_pos (t : SymbolTable) : 0 < t.depth := by simp [depth, frames]

@[simp]
theorem depth_push (t : SymbolTable) (owner : Option String) :
    (t.push owner).depth = t.depth + 1 := rfl

/-- Closes the innermost frame if it is not the outermost one. Whatever is done in a frame of its own
ends with this, also when it fails. -/
def close (t : SymbolTable) : SymbolTable :=
  match t.pop with
  | .ok t => t
  | .error _ => t

theorem frames_close_push (t : SymbolTable) (owner : Option String) :
    (t.push owner).close.frames = t.frames := rfl

/-! ### Symbols -/

/-- The table with one more symbol in the innermost frame. -/
def bind (t : SymbolTable) (s : Symbol) : SymbolTable :=
  { t with top := { t.top with symbols := (s.key, s) :: t.top.symbols } }

/-- Binds a symbol in the innermost frame, unless that frame binds its name and kind already. -/
def declare (t : SymbolTable) (s : Symbol) : Except CompileError SymbolTable :=
  match t.top.find? s.name s.kind with
  | some _ => .error (.duplicate s.kind s.name s.location)
  | none => .ok (t.bind s)

theorem find?_bind (t : SymbolTable) (s : Symbol) (name : String) (kind : SymbolKind) :
    (t.bind s).top.find? name kind =
      if (name, kind) = s.key then some s else t.top.find? name kind := by
  by_cases h : (name, kind) = s.key
  · simp [bind, Frame.find?, h]
  · have hne : ((name, kind) == s.key) = false := by simpa using h
    simp [bind, Frame.find?, List.lookup_cons, h, hne]

theorem declare_eq_ok {t u : SymbolTable} {s : Symbol} :
    t.declare s = .ok u ↔ t.top.find? s.name s.kind = none ∧ t.bind s = u := by
  unfold declare
  cases t.top.find? s.name s.kind <;> simp

theorem declare_eq_error {t : SymbolTable} {s : Symbol} {e : CompileError} :
    t.declare s = .error e ↔
      t.top.find? s.name s.kind ≠ none ∧ e = .duplicate s.kind s.name s.location := by
  unfold declare
  cases t.top.find? s.name s.kind <;> simp [eq_comm]

/-- The symbol that the innermost of the frames that bind it binds to a name of a kind. -/
def lookup (t : SymbolTable) (name : String) (kind : SymbolKind) : Option Symbol :=
  t.frames.findSome? fun f => f.find? name kind

@[simp]
theorem lookup_push (t : SymbolTable) (owner : Option String) (name : String) (kind : SymbolKind) :
    (t.push owner).lookup name kind = t.lookup name kind := rfl

theorem lookup_eq_or (t : SymbolTable) (name : String) (kind : SymbolKind) :
    t.lookup name kind =
      (t.top.find? name kind).or (t.outer.findSome? fun f => f.find? name kind) := by
  unfold lookup frames
  rw [List.findSome?_cons]
  cases t.top.find? name kind <;> rfl

/-- A symbol just bound hides all others of its name and kind, and no other one. -/
theorem lookup_bind (t : SymbolTable) (s : Symbol) (name : String) (kind : SymbolKind) :
    (t.bind s).lookup name kind = if (name, kind) = s.key then some s else t.lookup name kind := by
  rw [lookup_eq_or, lookup_eq_or, find?_bind]
  split <;> rfl

/-- The symbol bound to a name of a kind, or an error. -/
def find (t : SymbolTable) (name : String) (kind : SymbolKind) (location : Location) :
    Except CompileError Symbol :=
  match t.lookup name kind with
  | some s => .ok s
  | none => .error (.unresolved kind name location)

/-- The type bound to a name. -/
def findType? (t : SymbolTable) (name : String) : Option TypeSymbol :=
  match t.lookup name .type with
  | some (.type type) => some type
  | _ => none

theorem findType?_congr {t u : SymbolTable} {name : String}
    (h : t.lookup name .type = u.lookup name .type) : t.findType? name = u.findType? name := by
  unfold findType?
  rw [h]

def findFunc (t : SymbolTable) (name : String) (location : Location) : Except CompileError Func := do
  match ← t.find name .func location with
  | .func func => .ok func
  | other => .error (.breach (.funcKey other.kind))

def findVar (t : SymbolTable) (name : String) (location : Location) : Except CompileError Var := do
  match ← t.find name .var location with
  | .var var => .ok var
  | other => .error (.breach (.varKey other.kind))

/-- The type bound to a name, or an error. -/
def resolveType (t : SymbolTable) (name : String) (location : Location) :
    Except CompileError TypeSymbol :=
  match t.findType? name with
  | some type => .ok type
  | none => .error (.undefinedType name location)

theorem resolveType_ok_iff {t : SymbolTable} {name : String} {location : Location}
    {type : TypeSymbol} : t.resolveType name location = .ok type ↔ t.findType? name = some type := by
  unfold resolveType
  cases t.findType? name <;> simp

/-! ### Types -/

/-- The type as it is when declared in the innermost frame. -/
def adopt (t : SymbolTable) (type : TypeSymbol) : TypeSymbol := { type with home := t.top.id }

/-- The field types found for a type, in the order of its fields. -/
def foundFields (t : SymbolTable) (type : TypeSymbol) : List FieldType :=
  (t.fieldTypes.lookup type.key).getD []

/-- Records the type found for the field at a position. It is found once. -/
def resolveField (t : SymbolTable) (type : TypeSymbol) (position : Nat) (field : String)
    (found : FieldType) : Except CompileError SymbolTable :=
  if position < (t.foundFields type).length then .error (.breach (.resolvedTwice field))
  else .ok { t with fieldTypes := (type.key, t.foundFields type ++ [found]) :: t.fieldTypes }

/-- A type with the field types found so far. -/
def define (t : SymbolTable) (type : TypeSymbol) : TypeDef := ⟨type, t.foundFields type⟩

end SymbolTable

end Coherence
