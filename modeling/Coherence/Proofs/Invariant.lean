import Coherence.Proofs.Frames
/-!
# What holds between declarations

A symbol table is `Sound` if every symbol is found under its own name and kind, and field types are
on record only for types that were declared in frames opened so far. Opening and closing frames,
binding symbols and compiling a type keep this. For the types of a list of declarations that are
registered and whose turn is still to come no field types are on record (`SymbolTable.Awaits`).
-/

namespace Coherence

namespace SymbolTable

/-- Every symbol is found under its own name and kind. -/
def Keyed (t : SymbolTable) : Prop := ∀ f ∈ t.frames, ∀ e ∈ f.symbols, e.1 = e.2.key

/-- Some fields of the type were looked at. -/
def Records (t : SymbolTable) (k : TypeSymbol.Key) : Prop := t.fieldTypes.lookup k ≠ none

/-- What holds of a symbol table between declarations. -/
structure Sound (t : SymbolTable) : Prop where
  keyed : t.Keyed
  /-- A type of the innermost frame whose fields are on record is bound there. -/
  bound : ∀ k, t.Records k → k.home = t.top.id → t.top.find? k.ident .type ≠ none
  /-- A type whose fields are on record was declared in a frame opened so far. -/
  marked : ∀ k, t.Records k → k.home.index < t.opened.count k.home.owner
  /-- The innermost frame is one of those opened so far. -/
  opened : t.top.id.index < t.opened.count t.top.id.owner

variable {t u : SymbolTable} {owner : Option String} {touched : TypeSymbol.Key → Prop}

namespace Keyed

theorem key_of_find? (h : t.Keyed) {f : Frame} (hf : f ∈ t.frames) {name : String}
    {kind : SymbolKind} {s : Symbol} (hs : f.find? name kind = some s) : s.key = (name, kind) := by
  obtain ⟨l₁, l₂, hsplit, -⟩ := List.lookup_eq_some_iff.mp hs
  exact (h f hf ((name, kind), s) (by simp [hsplit])).symm

theorem key_of_lookup (h : t.Keyed) {name : String} {kind : SymbolKind} {s : Symbol}
    (hs : t.lookup name kind = some s) : s.key = (name, kind) := by
  obtain ⟨f, hf, hfind⟩ := List.exists_of_findSome?_eq_some hs
  exact h.key_of_find? hf hfind

theorem push (h : t.Keyed) : (t.push owner).Keyed := by
  intro f hf
  rcases List.mem_cons.mp hf with rfl | hf
  · intro e he
    cases he
  · exact h f hf

theorem bind (h : t.Keyed) (s : Symbol) : (t.bind s).Keyed := by
  intro f hf e he
  rcases List.mem_cons.mp hf with rfl | hf
  · rcases List.mem_cons.mp he with rfl | he
    · rfl
    · exact h t.top List.mem_cons_self e he
  · exact h f (List.mem_cons_of_mem _ hf) e he

theorem grown (h : t.Keyed) (hg : Grown owner touched t u) : u.Keyed := by
  obtain ⟨vars, hvars⟩ := hg.symbols
  intro f hf e he
  rcases List.mem_cons.mp hf with rfl | hf
  · rw [hvars] at he
    rcases List.mem_append.mp he with he | he
    · obtain ⟨v, -, rfl⟩ := List.mem_map.mp he
      rfl
    · exact h t.top List.mem_cons_self e he
  · rw [hg.outer] at hf
    exact h f (List.mem_cons_of_mem _ hf) e he

end Keyed

theorem find?_bind_type (t : SymbolTable) {s : Symbol} (hs : s.kind ≠ .type) (name : String) :
    (t.bind s).top.find? name .type = t.top.find? name .type := by
  rw [find?_bind, if_neg]
  intro h
  exact hs (congrArg Prod.snd h).symm

namespace Sound

theorem initial : initial.Sound where
  keyed := by
    intro f hf e he
    rw [List.mem_singleton.mp hf] at he
    rw [List.mem_singleton.mp he]
    rfl
  bound := fun k hk => absurd rfl hk
  marked := fun k hk => absurd rfl hk
  opened := by decide

theorem push (h : t.Sound) (owner : Option String) : (t.push owner).Sound where
  keyed := h.keyed.push
  bound := by
    -- The frame was opened just now, so no type of it is on record.
    intro k hk hhome
    have := h.marked k hk
    rw [hhome] at this
    exact absurd this (Nat.lt_irrefl _)
  marked := by
    intro k hk
    have := h.marked k hk
    have := List.count_le_count_cons (a := k.home.owner) (b := owner) (l := t.opened)
    show k.home.index < (owner :: t.opened).count k.home.owner
    omega
  opened := by
    show t.opened.count owner < (owner :: t.opened).count owner
    rw [List.count_cons_self]
    omega

theorem bind (h : t.Sound) (s : Symbol) : (t.bind s).Sound where
  keyed := h.keyed.bind s
  bound := by
    intro k hk hhome
    rw [find?_bind]
    split
    · simp
    · exact h.bound k hk hhome
  marked := h.marked
  opened := h.opened

theorem kept (h : t.Sound) (hk : Kept owner touched t u)
    (hbound : ∀ k, touched k → k.home = t.top.id → t.top.find? k.ident .type ≠ none)
    (hmarked : ∀ k, touched k → k.home.index < u.opened.count k.home.owner) : u.Sound where
  keyed := h.keyed.grown hk.grown
  bound := by
    intro k hrec hhome
    rw [hk.top] at hhome ⊢
    by_cases ht : touched k
    · exact hbound k ht hhome
    · exact h.bound k (by rwa [Records, ← hk.fieldTypes k ht]) hhome
  marked := by
    intro k hrec
    by_cases ht : touched k
    · exact hmarked k ht
    · have := h.marked k (by rwa [Records, ← hk.fieldTypes k ht])
      have := hk.toMarked.count_opened_le k.home.owner
      omega
  opened := by
    have := h.opened
    have := hk.toMarked.count_opened_le t.top.id.owner
    rw [hk.top]
    omega

end Sound

end SymbolTable

/-! ### Declarations that wait -/

/-- The type that a declaration registered. -/
def Pending.symbol? : Pending → Option TypeSymbol
  | .type _ (.declared symbol) => some symbol
  | _ => none

def Pending.symbols (ps : List Pending) : List TypeSymbol := ps.filterMap Pending.symbol?

namespace Pending

theorem symbols_cons (p : Pending) (ps : List Pending) :
    symbols (p :: ps) = p.symbol?.toList ++ symbols ps := by
  unfold symbols
  rw [List.filterMap_cons]
  cases p.symbol? <;> rfl

theorem home_of_symbol? {p : Pending} {machine : Option String} {home : FrameId}
    {type : TypeSymbol} (hp : p.SettledIn machine home) (h : p.symbol? = some type) :
    type.home = home := by
  cases p with
  | type d state =>
      cases state with
      | declared symbol =>
          cases h
          exact congrArg TypeSymbol.home hp
      | pending => cases h
      | rejected e => cases h
  | func d => cases h
  | machine d => cases h

end Pending

/-- What is known of declarations whose turn is still to come: the types that they registered are
bound in the innermost frame, and nothing is on record for them. -/
structure SymbolTable.Awaits (t : SymbolTable) (machine : Option String) (ps : List Pending) :
    Prop where
  settled : ∀ p ∈ ps, p.SettledIn machine t.top.id
  bound : ∀ type ∈ Pending.symbols ps, t.top.find? type.ident .type = some (.type type)
  unseen : ∀ type ∈ Pending.symbols ps, ¬t.Records type.key
  distinct : (Pending.symbols ps).Pairwise fun σ τ => σ.key ≠ τ.key

namespace SymbolTable.Awaits

variable {t u : SymbolTable} {machine : Option String} {p : Pending} {ps : List Pending}

/-- What is known of the others once a declaration's turn is over. -/
theorem next (h : t.Awaits machine (p :: ps)) (hid : u.top.id = t.top.id)
    (hfind : ∀ name, u.top.find? name .type = t.top.find? name .type)
    (hrec : ∀ type ∈ Pending.symbols ps,
      u.fieldTypes.lookup type.key = t.fieldTypes.lookup type.key) : u.Awaits machine ps where
  settled := by
    rw [hid]
    exact fun q hq => h.settled q (List.mem_cons_of_mem _ hq)
  bound := by
    intro type hm
    rw [hfind]
    exact h.bound type (by simp [Pending.symbols_cons, hm])
  unseen := by
    intro type hm
    rw [Records, hrec type hm]
    exact h.unseen type (by simp [Pending.symbols_cons, hm])
  distinct := by
    have := h.distinct
    rw [Pending.symbols_cons, List.pairwise_append] at this
    exact this.2.1

/-- What is known of the declaration whose turn it is. -/
theorem head {type : TypeSymbol} {d : TypeDecl}
    (h : t.Awaits machine (.type d (.declared type) :: ps)) :
    type.home = t.top.id ∧ t.top.find? type.ident .type = some (.type type) ∧
      ¬t.Records type.key ∧ ∀ other ∈ Pending.symbols ps, other.key ≠ type.key := by
  have hmem : type ∈ Pending.symbols (.type d (.declared type) :: ps) := by
    simp [Pending.symbols_cons, Pending.symbol?]
  have hdistinct := h.distinct
  rw [Pending.symbols_cons, List.pairwise_append] at hdistinct
  refine ⟨Pending.home_of_symbol? (h.settled _ List.mem_cons_self) rfl, h.bound type hmem,
    h.unseen type hmem, ?_⟩
  intro other hother
  exact (hdistinct.2.2 type (by simp [Pending.symbol?]) other hother).symm

end SymbolTable.Awaits

namespace Decl

open SymbolTable (Awaits)

variable (machine : Option String) {t : SymbolTable}

theorem sound_predeclare (h : t.Sound) (d : Decl) : (d.predeclare t machine).1.Sound := by
  cases d with
  | type d =>
      simp only [predeclare, TypeDecl.predeclare]
      split
      · rename_i hd
        obtain ⟨-, rfl⟩ := SymbolTable.declare_eq_ok.mp hd
        exact h.bind _
      · exact h
  | func d => exact h
  | machine d => exact h

/-- Registering declares a type that was not bound in the innermost frame, or nothing. -/
theorem symbol?_predeclare (t : SymbolTable) (d : Decl) {type : TypeSymbol}
    (h : (d.predeclare t machine).2.symbol? = some type) :
    t.top.find? type.ident .type = none ∧ (d.predeclare t machine).1 = t.bind (.type type) := by
  cases d with
  | type d =>
      simp only [predeclare, TypeDecl.predeclare] at h ⊢
      split at h
      · rename_i hd
        cases h
        exact ⟨(SymbolTable.declare_eq_ok.mp hd).1, (SymbolTable.declare_eq_ok.mp hd).2.symm⟩
      · cases h
  | func d => cases h
  | machine d => cases h

/-- A type once bound stays bound while others are registered. -/
theorem find?_predeclare {name : String} {s : Symbol} (d : Decl)
    (h : t.top.find? name .type = some s) :
    (d.predeclare t machine).1.top.find? name .type = some s := by
  cases d with
  | type d =>
      simp only [predeclare, TypeDecl.predeclare]
      split
      · rename_i hd
        obtain ⟨hnone, rfl⟩ := SymbolTable.declare_eq_ok.mp hd
        rw [SymbolTable.find?_bind, if_neg]
        · exact h
        · intro heq
          rw [Symbol.key, Prod.mk.injEq] at heq
          rw [← heq.1, ← heq.2, h] at hnone
          cases hnone
      · exact h
  | func d => exact h
  | machine d => exact h

theorem find?_predeclareAll {name : String} {s : Symbol} (ds : List Decl)
    (h : t.top.find? name .type = some s) :
    (predeclareAll t machine ds).1.top.find? name .type = some s := by
  induction ds generalizing t with
  | nil => exact h
  | cons d ds ih => exact ih (find?_predeclare machine d h)

theorem symbols_predeclareAll_cons (t : SymbolTable) (d : Decl) (ds : List Decl) :
    Pending.symbols (predeclareAll t machine (d :: ds)).2 =
      (d.predeclare t machine).2.symbol?.toList ++
        Pending.symbols (predeclareAll (d.predeclare t machine).1 machine ds).2 :=
  Pending.symbols_cons _ _

theorem find?_of_mem_symbols (t : SymbolTable) (ds : List Decl) {type : TypeSymbol}
    (h : type ∈ Pending.symbols (predeclareAll t machine ds).2) :
    t.top.find? type.ident .type = none := by
  induction ds generalizing t with
  | nil => cases h
  | cons d ds ih =>
      rw [symbols_predeclareAll_cons, List.mem_append, Option.mem_toList] at h
      rcases h with hs | hs
      · exact (symbol?_predeclare machine t d hs).1
      · have hnone := ih _ hs
        cases hf : t.top.find? type.ident .type with
        | none => rfl
        | some s =>
            rw [find?_predeclare machine d hf] at hnone
            cases hnone

theorem sound_predeclareAll (h : t.Sound) (ds : List Decl) :
    (predeclareAll t machine ds).1.Sound := by
  induction ds generalizing t with
  | nil => exact h
  | cons d ds ih => exact ih (sound_predeclare machine h d)

theorem find?_symbols_predeclareAll (t : SymbolTable) (ds : List Decl) {type : TypeSymbol}
    (h : type ∈ Pending.symbols (predeclareAll t machine ds).2) :
    (predeclareAll t machine ds).1.top.find? type.ident .type = some (.type type) := by
  induction ds generalizing t with
  | nil => cases h
  | cons d ds ih =>
      rw [symbols_predeclareAll_cons, List.mem_append, Option.mem_toList] at h
      rcases h with hs | hs
      · rw [predeclareAll_cons]
        refine find?_predeclareAll machine ds ?_
        rw [(symbol?_predeclare machine t d hs).2, SymbolTable.find?_bind]
        exact if_pos rfl
      · exact ih _ hs

theorem distinct_symbols_predeclareAll (t : SymbolTable) (ds : List Decl) :
    (Pending.symbols (predeclareAll t machine ds).2).Pairwise fun σ τ => σ.key ≠ τ.key := by
  induction ds generalizing t with
  | nil => exact .nil
  | cons d ds ih =>
      rw [symbols_predeclareAll_cons, List.pairwise_append]
      refine ⟨?_, ih _, ?_⟩
      · cases (d.predeclare t machine).2.symbol? with
        | none => exact .nil
        | some type => exact List.pairwise_singleton _ _
      · intro type hs other hother heq
        rw [Option.mem_toList] at hs
        -- The earlier type is bound by the time the later one is tried.
        have hnone := find?_of_mem_symbols machine _ ds hother
        rw [(symbol?_predeclare machine t d hs).2, SymbolTable.find?_bind, if_pos] at hnone
        · cases hnone
        · exact congrArg (fun k => (k.ident, SymbolKind.type)) heq.symm

/-- What is known of declarations once their types are registered. -/
theorem awaits_predeclareAll (h : t.Sound) (ds : List Decl) :
    (predeclareAll t machine ds).1.Awaits machine (predeclareAll t machine ds).2 := by
  obtain ⟨-, hid, -, hfields⟩ := predeclareAll_frame machine t ds
  have hsettled := settledIn_predeclareAll machine t ds
  refine ⟨by rwa [hid], fun _ => find?_symbols_predeclareAll machine t ds, ?_,
    distinct_symbols_predeclareAll machine t ds⟩
  intro type hm hrec
  rw [SymbolTable.Records, hfields] at hrec
  refine h.bound type.key hrec ?_ (find?_of_mem_symbols machine t ds hm)
  obtain ⟨p, hp, hs⟩ := List.mem_filterMap.mp hm
  exact Pending.home_of_symbol? (hsettled p hp) hs

end Decl

end Coherence
