import Coherence.Proofs.Acceptance
import Coherence.Proofs.Sealed
/-!
# Which types are accepted

A type that was not registered before is accepted exactly if the innermost frame has no type of its name,
the types of its fields are found once it is registered itself, and no two of its fields, or enumerators,
share a name (`TypeDecl.Acceptable`). Then it is bound in the innermost frame, its fields are of the types
that their names lead to, it is added to the machine, and all else is as before (`TypeDecl.Added`);
otherwise the machine and the frames around the innermost one are as before
(`TypeDecl.compile_accepts_types`).

The field types on record could be in the way, so the symbol table has to be one that the operations on
tables make (`SymbolTable.Made`): nothing is on record there for a type whose frame is open and does not
bind it.
-/

namespace Coherence

namespace SymbolTable

/-! ### Tables that are made by registering types before their fields are found -/

/-- The frame of the type was opened, and as long as it is open it binds a type of that name. -/
def Declared (t : SymbolTable) (k : TypeSymbol.Key) : Prop :=
  t.Opened k.home ∧ ∀ f ∈ t.frames, f.id = k.home → f.find? k.ident .type ≠ none

/-- A symbol table as the operations make it. A type is bound in the frame that it is declared in first,
and its fields are found afterwards. -/
inductive Made : SymbolTable → Prop
  | initial : Made .initial
  | push {t : SymbolTable} (owner : Option String) : Made t → Made (t.push owner)
  | pop {t u : SymbolTable} : Made t → t.pop = .ok u → Made u
  | declare {t u : SymbolTable} {s : Symbol} : Made t →
      (∀ τ, s = .type τ → τ.home = t.top.id ∨ t.Declared τ.key) → t.declare s = .ok u → Made u
  | resolveField {t u : SymbolTable} {τ : TypeSymbol} {position : Nat} {field : String}
      {found : FieldType} : Made t → t.Declared τ.key →
      t.resolveField τ position field found = .ok u → Made u

/-- What holds of all tables that are made. -/
structure Tidy (t : SymbolTable) : Prop where
  opened : ∀ f ∈ t.frames, t.Opened f.id
  distinct : (t.frames.map Frame.id).Nodup
  /-- A type whose fields are on record was declared. -/
  recorded : ∀ k, t.Records k → t.Declared k
  /-- So was a type that is bound. -/
  bound : ∀ τ, t.Binds τ → t.Declared τ.key

variable {t u : SymbolTable} {k : TypeSymbol.Key}

namespace Declared

theorem push (h : t.Declared k) (owner : Option String) : (t.push owner).Declared k := by
  refine ⟨h.1.push owner, fun f hf hid => ?_⟩
  rcases List.mem_cons.mp hf with rfl | hf
  · -- The frame was opened just now, and that of the type before.
    have hopened := h.1
    rw [← hid] at hopened
    exact absurd hopened (Nat.lt_irrefl _)
  · exact h.2 f hf hid

theorem pop (h : t.Declared k) (hu : t.pop = .ok u) : u.Declared k := by
  obtain ⟨houter, hopened, -⟩ := pop_eq_ok.mp hu
  refine ⟨by rw [Opened, hopened]; exact h.1, fun f hf => h.2 f ?_⟩
  rw [← houter] at hf
  exact List.mem_cons_of_mem _ hf

theorem bind (h : t.Declared k) (s : Symbol) : (t.bind s).Declared k := by
  refine ⟨h.1, fun f hf hid => ?_⟩
  rcases List.mem_cons.mp hf with rfl | hf
  · rw [find?_bind]
    split
    · simp
    · exact h.2 t.top List.mem_cons_self hid
  · exact h.2 f (List.mem_cons_of_mem _ hf) hid

end Declared

namespace Tidy

theorem initial : initial.Tidy where
  opened := by
    intro f hf
    rw [List.mem_singleton.mp hf]
    decide
  distinct := by decide
  recorded := fun k hk => absurd rfl hk
  bound := by
    rintro τ ⟨f, hf, key, hmem⟩
    rw [List.mem_singleton.mp hf] at hmem
    cases List.mem_singleton.mp hmem
    refine ⟨by decide, fun g hg _ => ?_⟩
    rw [List.mem_singleton.mp hg]
    decide

theorem push (h : t.Tidy) (owner : Option String) : (t.push owner).Tidy where
  opened := by
    intro f hf
    rcases List.mem_cons.mp hf with rfl | hf
    · show t.opened.count owner < (owner :: t.opened).count owner
      rw [List.count_cons_self]
      omega
    · exact (h.opened f hf).push owner
  distinct := by
    refine List.nodup_cons.mpr ⟨fun hmem => ?_, h.distinct⟩
    obtain ⟨f, hf, hid⟩ := List.mem_map.mp hmem
    have hopened := h.opened f hf
    rw [hid] at hopened
    exact Nat.lt_irrefl _ hopened
  recorded := fun k hk => (h.recorded k hk).push owner
  bound := by
    rintro τ ⟨f, hf, key, hmem⟩
    rcases List.mem_cons.mp hf with rfl | hf
    · cases hmem
    · exact (h.bound τ ⟨f, hf, key, hmem⟩).push owner

theorem pop (h : t.Tidy) (hu : t.pop = .ok u) : u.Tidy := by
  obtain ⟨houter, hopened, hfields⟩ := pop_eq_ok.mp hu
  have hsub : ∀ f ∈ u.frames, f ∈ t.frames := by
    intro f hf
    rw [← houter] at hf
    exact List.mem_cons_of_mem _ hf
  refine ⟨fun f hf => ?_, ?_, fun k hk => ?_, ?_⟩
  · have := h.opened f (hsub f hf)
    rwa [Opened, ← hopened] at this
  · have := h.distinct
    rw [frames, List.map_cons, houter] at this
    exact (List.nodup_cons.mp this).2
  · rw [Records, hfields] at hk
    exact (h.recorded k hk).pop hu
  · rintro τ ⟨f, hf, hmem⟩
    exact (h.bound τ ⟨f, hsub f hf, hmem⟩).pop hu

theorem declared_bind (h : t.Tidy) {τ : TypeSymbol} (hτ : τ.home = t.top.id) :
    (t.bind (.type τ)).Declared τ.key := by
  have hopened : t.Opened τ.home := hτ ▸ h.opened t.top List.mem_cons_self
  refine ⟨hopened, fun f hf hid => ?_⟩
  rcases List.mem_cons.mp hf with rfl | hf
  · have hfind : (t.bind (.type τ)).top.find? τ.ident .type = some (.type τ) := by
      rw [find?_bind]
      exact if_pos rfl
    show (t.bind (.type τ)).top.find? τ.ident .type ≠ none
    rw [hfind]
    simp
  · -- No other frame has the mark of the innermost one.
    have hdistinct := h.distinct
    rw [frames, List.map_cons, List.nodup_cons] at hdistinct
    exact absurd (List.mem_map.mpr ⟨f, hf, hid.trans hτ⟩) hdistinct.1

theorem declare {s : Symbol} (h : t.Tidy)
    (hs : ∀ τ, s = .type τ → τ.home = t.top.id ∨ t.Declared τ.key) (hu : t.declare s = .ok u) :
    u.Tidy := by
  obtain ⟨-, rfl⟩ := declare_eq_ok.mp hu
  refine ⟨?_, h.distinct, fun k hk => (h.recorded k hk).bind s, ?_⟩
  · intro f hf
    rcases List.mem_cons.mp hf with rfl | hf
    · exact h.opened t.top List.mem_cons_self
    · exact h.opened f (List.mem_cons_of_mem _ hf)
  · rintro τ ⟨f, hf, key, hmem⟩
    rcases List.mem_cons.mp hf with rfl | hf
    · rcases List.mem_cons.mp hmem with heq | hmem
      · obtain ⟨rfl, rfl⟩ := Prod.mk.inj heq
        exact (hs τ rfl).elim h.declared_bind fun hτ => hτ.bind _
      · exact (h.bound τ ⟨t.top, List.mem_cons_self, key, hmem⟩).bind s
    · exact (h.bound τ ⟨f, List.mem_cons_of_mem _ hf, key, hmem⟩).bind s

theorem resolveField {τ : TypeSymbol} {position : Nat} {field : String} {found : FieldType}
    (h : t.Tidy) (hτ : t.Declared τ.key) (hu : t.resolveField τ position field found = .ok u) :
    u.Tidy := by
  unfold SymbolTable.resolveField at hu
  split at hu
  · cases hu
  · cases hu
    refine ⟨h.opened, h.distinct, fun k hk => ?_, h.bound⟩
    by_cases hkey : k = τ.key
    · rw [hkey]
      exact hτ
    · refine h.recorded k ?_
      have hne : (k == τ.key) = false := by simpa using hkey
      simpa [Records, List.lookup_cons, hne] using hk

/-- Nothing is on record for a type of the innermost frame that this frame does not bind. -/
theorem unseen (h : t.Tidy) (hhome : k.home = t.top.id) (hfree : t.top.find? k.ident .type = none) :
    ¬t.Records k :=
  fun hk => (h.recorded k hk).2 t.top List.mem_cons_self hhome.symm hfree

end Tidy

theorem Made.tidy (h : t.Made) : t.Tidy := by
  induction h with
  | initial => exact .initial
  | push owner _ ih => exact ih.push owner
  | pop _ hu ih => exact ih.pop hu
  | declare _ hs hu ih => exact ih.declare hs hu
  | resolveField _ hτ hu ih => exact ih.resolveField hτ hu

theorem Made.close (h : t.Made) : t.close.Made := by
  unfold SymbolTable.close
  cases hu : t.pop with
  | ok u => exact h.pop hu
  | error e => exact h

/-! ### Fields on record -/

/-- The table with one more field found for a type. -/
def record (t : SymbolTable) (τ : TypeSymbol) (found : FieldType) : SymbolTable :=
  { t with fieldTypes := (τ.key, t.foundFields τ ++ [found]) :: t.fieldTypes }

@[simp]
theorem foundFields_record (τ : TypeSymbol) (found : FieldType) :
    (t.record τ found).foundFields τ = t.foundFields τ ++ [found] := by
  simp [record, foundFields]

theorem resolveField_of_le {τ : TypeSymbol} {position : Nat} {field : String} {found : FieldType}
    (h : (t.foundFields τ).length ≤ position) :
    t.resolveField τ position field found = .ok (t.record τ found) := by
  unfold resolveField
  rw [if_neg (Nat.not_lt.mpr h)]
  rfl

end SymbolTable

/-! ### Members -/

namespace TypeDecl

variable {type : TypeSymbol} {t : SymbolTable}

/-- Fields that nothing is on record for are found exactly if all their types are, and their names can be
bound. -/
theorem resolveFields_succeeds {position : Nat} {fields : List Field}
    (h : (t.foundFields type).length ≤ position) :
    (resolveFields type t position fields).1 = .ok () ↔
      (∀ f ∈ fields, ∃ σ, t.findType? f.typeName = some σ) ∧ t.Fresh (fields.map Field.ident) := by
  induction fields generalizing t position with
  | nil => exact ⟨fun _ => ⟨by simp, .nil t⟩, fun _ => rfl⟩
  | cons f fs ih =>
      rw [List.forall_mem_cons, List.map_cons]
      unfold resolveFields
      cases hσ : t.findType? f.typeName with
      | none => simp [SymbolTable.resolveType, hσ]
      | some σ =>
          simp only [SymbolTable.resolveType_ok_iff.mpr hσ, SymbolTable.resolveField_of_le h,
            SymbolTable.fresh_cons ⟨f.ident, f.location, σ⟩]
          cases hd : (t.record type σ.asFieldType).declare (.var ⟨f.ident, f.location, σ⟩) with
          | error e =>
              have hbound : t.top.find? f.ident .var ≠ none := (SymbolTable.declare_eq_error.mp hd).1
              simp [hbound]
          | ok u =>
              obtain ⟨hfree, rfl⟩ := SymbolTable.declare_eq_ok.mp hd
              replace hfree : t.top.find? f.ident .var = none := hfree
              have hlength : (((t.record type σ.asFieldType).bind
                  (.var ⟨f.ident, f.location, σ⟩)).foundFields type).length ≤ position + 1 := by
                show ((t.record type σ.asFieldType).foundFields type).length ≤ position + 1
                simpa using h
              -- What is on record has no part in which names are bound.
              have htype : ∀ name, (t.record type σ.asFieldType).findType? name = t.findType? name :=
                fun _ => rfl
              have hfresh : ((t.record type σ.asFieldType).bind (.var ⟨f.ident, f.location, σ⟩)).Fresh =
                  (t.bind (.var ⟨f.ident, f.location, σ⟩)).Fresh := rfl
              simp only [ih hlength, hfresh, SymbolTable.findType?_bind_var, htype, hfree, true_and,
                Option.some.injEq, exists_eq']

theorem bindValues_succeeds {values : List String} :
    (bindValues type t values).1 = .ok () ↔ t.Fresh values := by
  induction values generalizing t with
  | nil => exact ⟨fun _ => .nil t, fun _ => rfl⟩
  | cons v vs ih =>
      unfold bindValues
      rw [SymbolTable.fresh_cons ⟨v, type.location, type⟩]
      cases hd : t.declare (.var ⟨v, type.location, type⟩) with
      | error e =>
          have hbound : t.top.find? v .var ≠ none := (SymbolTable.declare_eq_error.mp hd).1
          simp [hbound]
      | ok u =>
          obtain ⟨hfree, rfl⟩ := SymbolTable.declare_eq_ok.mp hd
          replace hfree : t.top.find? v .var = none := hfree
          simp only [ih, hfree, true_and]

theorem made_resolveFields (h : t.Made) (hτ : t.Declared type.key) (position : Nat)
    (fields : List Field) : (resolveFields type t position fields).2.Made := by
  induction fields generalizing t position with
  | nil => exact h
  | cons f fs ih =>
      unfold resolveFields
      split
      · exact h
      · split
        · exact h
        · rename_i u hr
          have hu : u.Made := h.resolveField hτ hr
          have hdeclared : u.Declared type.key := by
            unfold SymbolTable.resolveField at hr
            split at hr <;> cases hr
            exact hτ
          split
          · exact hu
          · rename_i hd
            obtain ⟨-, rfl⟩ := SymbolTable.declare_eq_ok.mp hd
            exact ih (hu.declare (by rintro τ ⟨⟩) hd) (hdeclared.bind _) _

theorem made_bindValues (h : t.Made) (values : List String) : (bindValues type t values).2.Made := by
  induction values generalizing t with
  | nil => exact h
  | cons v vs ih =>
      unfold bindValues
      split
      · exact h
      · rename_i hd
        exact ih (h.declare (by rintro τ ⟨⟩) hd)

theorem made_checkMembers (h : t.Made) (hτ : t.Declared type.key) : (checkMembers type t).2.Made := by
  unfold checkMembers
  split
  · exact made_resolveFields h hτ 0 _
  · exact made_bindValues h _
  · exact h
  · exact h

/-! ### Registration -/

/-- The names of a structure's fields, or of an enumeration's values. -/
def memberNames (d : TypeDecl) : List String :=
  match d.body with
  | .primitive => []
  | .record fields => fields.map FieldDecl.ident
  | .enumeration values => values

/-- The type that is registered for the declaration where it stands. -/
def registered (s : Site) (d : TypeDecl) : TypeSymbol := s.table.adopt (d.symbol s.owner)

theorem checkMembers_succeeds {s : Site} {d : TypeDecl} (h : t.foundFields (d.registered s) = []) :
    (checkMembers (d.registered s) t.push).1 = .ok () ↔
      (∀ f ∈ d.fieldDecls, ∃ σ, t.findType? f.type.ident = some σ) ∧ d.memberNames.Nodup := by
  have hkind : (d.registered s).kind = d.kind := rfl
  unfold checkMembers fieldDecls memberNames
  rw [hkind, kind]
  cases d.body with
  | primitive => simp
  | enumeration values => simp [bindValues_succeeds, SymbolTable.fresh_push]
  | record fields =>
      have hlength : (t.push.foundFields (d.registered s)).length ≤ 0 := by
        show (t.foundFields (d.registered s)).length ≤ 0
        rw [h]
        exact Nat.le_refl 0
      simp only [resolveFields_succeeds hlength, SymbolTable.fresh_push, List.forall_mem_map,
        List.map_map]
      rfl

theorem compile_pending (s : Site) (d : TypeDecl) :
    d.compile s .pending =
      match s.table.declare (.type (d.registered s)) with
      | .error e => (.error e, s)
      | .ok table => compileDeclared { s with table } (d.registered s) := by
  unfold compile predeclare registered
  cases hd : s.table.declare (.type (s.table.adopt (d.symbol s.owner))) <;> simp only [hd]

theorem compileDeclared_succeeds {s : Site} :
    (∃ τ, (compileDeclared s type).1 = .ok τ) ↔ (checkMembers type s.table.push).1 = .ok () := by
  unfold compileDeclared
  cases checkMembers type s.table.push with
  | mk result inner => cases result <;> simp

/-- The type can be declared where it stands: the innermost frame has none of its name, the types of its
fields are found once it is registered, and no two of its fields, or values, share a name. -/
structure Acceptable (s : Site) (d : TypeDecl) : Prop where
  free : s.table.top.find? d.ident .type = none
  fields : ∀ f ∈ d.fieldDecls,
    ∃ σ, (s.table.bind (.type (d.registered s))).findType? f.type.ident = some σ
  distinct : d.memberNames.Nodup

/-- The type is new where it stands and all else is as before: the innermost frame binds it, and it is the
last one of the machine, if there is a machine. -/
structure Added (s : Site) (d : TypeDecl) (τ : TypeDef) (s' : Site) : Prop where
  symbol : τ.symbol = d.registered s
  bound : s'.table.top.find? d.ident .type = some (.type τ.symbol)
  /-- Whoever finds the type finds it with these fields. -/
  defined : s'.table.define τ.symbol = τ
  members : List.Forall₂ (fun (f : FieldDecl) (m : Member) => m.field.ident = f.ident ∧
    ∃ σ, s'.table.findType? f.type.ident = some σ ∧ m.cType = σ.cIdent ∧ m.header = σ.header)
    d.fieldDecls τ.members
  machine : s'.machine = s.machine.map fun m => { m with types := m.types ++ [τ] }
  frames : s'.table.frames = (s.table.bind (.type τ.symbol)).frames
  others : ∀ σ : TypeSymbol, σ.key ≠ τ.symbol.key → s'.table.define σ = s.table.define σ
  /-- The type is none of those that were bound before. -/
  known : ∀ σ, s.table.Binds σ → σ.key ≠ τ.symbol.key

section

variable {s : Site} {d : TypeDecl}

theorem compile_of_free (hfree : s.table.top.find? d.ident .type = none) :
    d.compile s .pending = compileDeclared
      { s with table := s.table.bind (.type (d.registered s)) } (d.registered s) := by
  have hd : s.table.declare (.type (d.registered s)) = .ok _ :=
    SymbolTable.declare_eq_ok.mpr ⟨hfree, rfl⟩
  rw [compile_pending, hd]

/-- Compiling a type is one of the things that symbol tables are made by. -/
theorem made_compile (h : s.table.Made) : (d.compile s .pending).2.table.Made := by
  rw [compile_pending]
  cases hd : s.table.declare (.type (d.registered s)) with
  | error e => exact h
  | ok u =>
      have hu : u.Made := h.declare (by rintro τ ⟨⟩; exact .inl rfl) hd
      obtain ⟨-, rfl⟩ := SymbolTable.declare_eq_ok.mp hd
      have hinner : (checkMembers (d.registered s)
          (s.table.bind (.type (d.registered s))).push).2.Made :=
        made_checkMembers (hu.push none) ((h.tidy.declared_bind rfl).push none)
      dsimp only
      unfold compileDeclared
      split <;> rename_i heq <;> rw [heq] at hinner <;> exact hinner.close

theorem awaits_registered (h : s.table.Made) (hfree : s.table.top.find? d.ident .type = none) :
    (s.table.bind (.type (d.registered s))).Awaits s.owner
      [.type d (.declared (d.registered s))] := by
  refine ⟨?_, ?_, ?_, List.pairwise_singleton _ _⟩
  · rintro p hp
    rw [List.mem_singleton.mp hp]
    rfl
  · rintro τ hτ
    rw [List.mem_singleton.mp hτ, SymbolTable.find?_bind]
    exact if_pos rfl
  · rintro τ hτ
    rw [List.mem_singleton.mp hτ]
    exact h.tidy.unseen (k := (d.registered s).key) rfl hfree

/-- A type is accepted exactly if it is acceptable. -/
theorem compile_pending_succeeds (h : s.table.Made) :
    (∃ τ, (d.compile s .pending).1 = .ok τ) ↔ d.Acceptable s := by
  cases hd : s.table.declare (.type (d.registered s)) with
  | error e =>
      rw [compile_pending, hd]
      have htaken := (SymbolTable.declare_eq_error.mp hd).1
      constructor
      · rintro ⟨τ, ⟨⟩⟩
      · intro hacceptable
        exact absurd hacceptable.free htaken
  | ok u =>
      have hfree : s.table.top.find? d.ident .type = none := (SymbolTable.declare_eq_ok.mp hd).1
      have hunseen : (s.table.bind (.type (d.registered s))).foundFields (d.registered s) = [] :=
        foundFields_of_unseen (awaits_registered h hfree).head.2.2.1
      rw [compile_of_free hfree, compileDeclared_succeeds]
      show (checkMembers (d.registered s) (s.table.bind (.type (d.registered s))).push).1 = _ ↔ _
      rw [checkMembers_succeeds hunseen]
      exact ⟨fun ⟨hfields, hdistinct⟩ => ⟨hfree, hfields, hdistinct⟩,
        fun hacceptable => ⟨hacceptable.fields, hacceptable.distinct⟩⟩

/-- What compiling a type leaves that is accepted. -/
theorem added_compile (h : s.table.Made) {τ : TypeDef} (hτ : (d.compile s .pending).1 = .ok τ) :
    d.Added s τ (d.compile s .pending).2 := by
  obtain ⟨hfree, -, -⟩ := (compile_pending_succeeds h).mp ⟨τ, hτ⟩
  have hresolved : d.Resolved (s.table.bind (.type (d.registered s))).findType? s.owner τ := by
    rw [compile_of_free hfree] at hτ
    exact resolved_compileDeclared (awaits_registered h hfree) hτ
  rw [compile_of_free hfree] at hτ ⊢
  obtain ⟨u, hkept, ⟨e, hc, -⟩ | hc⟩ := compileDeclared_cases
    { s with table := s.table.bind (.type (d.registered s)) } (d.registered s)
  · rw [hc] at hτ
    cases hτ
  · rw [hc] at hτ ⊢
    cases hτ
    have hfind : ∀ name,
        u.findType? name = (s.table.bind (.type (d.registered s))).findType? name :=
      fun name => SymbolTable.findType?_congr (hkept.lookup name .type)
    refine ⟨rfl, ?_, rfl, ?_, ?_, hkept.frames, ?_, ?_⟩
    · show u.top.find? d.ident .type = _
      rw [hkept.top, SymbolTable.find?_bind]
      exact if_pos rfl
    · refine hresolved.members.imp ?_
      rintro f m ⟨hident, σ, hσ, htype⟩
      refine ⟨hident, σ, (hfind f.type.ident).trans hσ, ?_, ?_⟩
      · rw [Member.cType, htype]
        rfl
      · rw [Member.header, htype]
        rfl
    · rfl
    · exact fun σ hσ => hkept.define hσ
    · -- The innermost frame would bind the name of a type with the key of the new one.
      intro σ hσ hkey
      have hdeclared := h.tidy.bound σ hσ
      rw [hkey] at hdeclared
      exact hdeclared.2 s.table.top List.mem_cons_self rfl hfree

end

/-- A type that was not registered before is accepted, where the symbol table is one that the operations
make, exactly if it is acceptable. Then it is added; otherwise the machine and the frames around the
innermost one are as before. The same holds of the next type on the table that is left. -/
theorem compile_accepts_types (s : Site) (d : TypeDecl) (h : s.table.Made) :
    (d.compile s .pending).2.table.Made ∧
    ((∃ τ, (d.compile s .pending).1 = .ok τ) ↔ d.Acceptable s) ∧
    (∀ τ, (d.compile s .pending).1 = .ok τ → d.Added s τ (d.compile s .pending).2) ∧
    ∀ e, (d.compile s .pending).1 = .error e →
      (d.compile s .pending).2.machine = s.machine ∧
      (d.compile s .pending).2.table.depth = s.table.depth ∧
      (d.compile s .pending).2.table.outer = s.table.outer := by
  refine ⟨made_compile h, compile_pending_succeeds h, fun τ hτ => added_compile h hτ, fun e he => ?_⟩
  rw [compile_pending] at he ⊢
  cases hd : s.table.declare (.type (d.registered s)) with
  | error e' => exact ⟨rfl, rfl, rfl⟩
  | ok table =>
      obtain ⟨-, rfl⟩ := SymbolTable.declare_eq_ok.mp hd
      rw [hd] at he
      obtain ⟨u, hkept, ⟨e', hc, -⟩ | hc⟩ := compileDeclared_cases
        { s with table := s.table.bind (.type (d.registered s)) } (d.registered s)
      · dsimp only
        rw [hc]
        refine ⟨rfl, ?_, hkept.outer⟩
        show u.frames.length = _
        rw [hkept.frames]
        rfl
      · dsimp only at he
        rw [hc] at he
        cases he

/-- A structure of the machine `L1` that names itself, a type of the frame around it and `void`. -/
def linked : TypeDecl := { ident := "Entry", body := .record [
  { type := { ident := "Entry" }, ident := "next" },
  { type := { ident := "State" }, ident := "state" },
  { type := { ident := "void" }, ident := "unused" }] }

/-- The machine `L1`, with an enumeration in the frame around it. -/
def insideL1 : Site :=
  { table := ((SymbolTable.initial.bind (.type { ident := "State", kind := .enumeration ["I", "M"] })).push
      (some "L1"))
    machine := some { ident := "L1" } }

/-- The structure is accepted and added to the machine, its fields spelled as the types that they name. -/
theorem compile_accepts_types_linked :
    insideL1.table.Made ∧ ∃ τ, (linked.compile insideL1 .pending).1 = .ok τ ∧
      linked.Added insideL1 τ (linked.compile insideL1 .pending).2 ∧
      τ.members.map (fun m => (m.cType, m.header)) =
        [("L1_Entry", some "L1_Entry.hh"), ("State", some "State.hh"), ("void", none)] := by
  have hmade : insideL1.table.Made := by
    refine .push _ (.declare .initial ?_ (SymbolTable.declare_eq_ok.mpr ⟨by decide, rfl⟩))
    rintro τ ⟨⟩
    exact .inl rfl
  have hfields : ∀ f ∈ linked.fieldDecls, ((insideL1.table.bind
      (.type (linked.registered insideL1))).findType? f.type.ident).isSome = true := by decide
  obtain ⟨-, hiff, hadded, -⟩ := compile_accepts_types insideL1 linked hmade
  obtain ⟨τ, hτ⟩ := hiff.mpr
    ⟨by decide, fun f hf => Option.isSome_iff_exists.mp (hfields f hf), by decide⟩
  have hmembers : (linked.compile insideL1 .pending).1.toOption.map
      (fun τ => τ.members.map fun m => (m.cType, m.header)) =
        some [("L1_Entry", some "L1_Entry.hh"), ("State", some "State.hh"), ("void", none)] := by
    decide +kernel
  rw [hτ] at hmembers
  exact ⟨hmade, τ, hτ, hadded τ hτ, Option.some.inj hmembers⟩

end TypeDecl

end Coherence
