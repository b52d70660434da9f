import Coherence.Proofs.Alike
import Coherence.Proofs.Shuffled
/-!
# Registering types in another order

If the types in a list of declarations have names of their own that the innermost frame does not bind,
all of them get registered, and the frame then holds the same types whatever their order was
(`SymbolTable.alike_bindTypes`). Of two tables one may have types registered that the other one gets later
(`SymbolTable.Precedes`).
-/

namespace Coherence

open SymbolTable (Alike)

def SymbolTable.bindTypes (t : SymbolTable) (types : List TypeSymbol) : SymbolTable :=
  types.foldl (fun t type => t.bind (.type type)) t

/-- The types have names of their own that the innermost frame does not bind. -/
structure SymbolTable.New (t : SymbolTable) (types : List TypeSymbol) : Prop where
  free : ∀ type ∈ types, t.top.find? type.ident .type = none
  distinct : types.Pairwise fun σ τ => σ.ident ≠ τ.ident

/-- The type that a declaration registers. -/
def Decl.symbol? (machine : Option String) (home : FrameId) : Decl → Option TypeSymbol
  | .type d => some { d.symbol machine with home }
  | .func _ => none
  | .machine _ => none

/-- A declaration whose registration was a success. -/
def Decl.settle (machine : Option String) (home : FrameId) : Decl → Pending
  | .type d => .type d (.declared { d.symbol machine with home })
  | .func d => .func d
  | .machine d => .machine d

/-- The registration of a declaration was refused. -/
def Pending.Rejected (p : Pending) : Prop := ∃ d e, p = .type d (.rejected e)

namespace SymbolTable

variable {t u : SymbolTable}

theorem New.perm {types types' : List TypeSymbol} (h : t.New types) (hp : types.Perm types') :
    t.New types' :=
  ⟨fun type hm => h.free type (hp.mem_iff.mpr hm), hp.pairwise h.distinct fun hne => hne.symm⟩

/-- Symbols of different names or kinds are bound in any order. -/
theorem alike_bind_bind {a b : Symbol} (h : Alike t u) (hkey : a.key ≠ b.key) :
    Alike ((t.bind a).bind b) ((u.bind b).bind a) := by
  constructor <;> funext name kind
  · simp only [find?_bind, h.top]
    split
    · rename_i hb
      rw [if_neg fun ha => hkey (ha.symm.trans hb)]
    · rfl
  · simp only [lookup_bind, h.lookup]
    split
    · rename_i hb
      rw [if_neg fun ha => hkey (ha.symm.trans hb)]
    · rfl

theorem Alike.bindTypes (h : Alike t u) (types : List TypeSymbol) :
    Alike (t.bindTypes types) (u.bindTypes types) := by
  induction types generalizing t u with
  | nil => exact h
  | cons type types ih => exact ih (h.bind _)

theorem alike_bindTypes {types types' : List TypeSymbol} (hp : types.Perm types')
    (hd : types.Pairwise fun σ τ => σ.ident ≠ τ.ident) (h : Alike t u) :
    Alike (t.bindTypes types) (u.bindTypes types') := by
  induction hp generalizing t u with
  | nil => exact h
  | cons type _ ih => exact ih (List.pairwise_cons.mp hd).2 (h.bind _)
  | swap σ τ types =>
      have hne := (List.pairwise_cons.mp hd).1 σ List.mem_cons_self
      have hkey : Symbol.key (.type τ) ≠ Symbol.key (.type σ) := fun heq => hne (congrArg Prod.fst heq)
      exact (alike_bind_bind h hkey).bindTypes types
  | trans hp₁ _ ih₁ ih₂ =>
      exact (ih₁ hd h).trans (ih₂ (hp₁.pairwise hd fun hne => hne.symm) .refl)

theorem New.tail {σ : TypeSymbol} {types : List TypeSymbol} (h : t.New (σ :: types)) :
    (t.bind (.type σ)).New types := by
  obtain ⟨hσ, htypes⟩ := List.pairwise_cons.mp h.distinct
  refine ⟨fun type hm => ?_, htypes⟩
  rw [find?_bind, if_neg fun heq => hσ type hm (congrArg Prod.fst heq).symm]
  exact h.free type (List.mem_cons_of_mem _ hm)

theorem New.cons {σ : TypeSymbol} {types : List TypeSymbol} (h : (t.bind (.type σ)).New types)
    (hfree : t.top.find? σ.ident .type = none) : t.New (σ :: types) := by
  have hnot : ∀ type ∈ types, ¬(type.ident, SymbolKind.type) = Symbol.key (.type σ) := by
    intro type hm heq
    have hnone := h.free type hm
    rw [find?_bind, if_pos heq] at hnone
    cases hnone
  refine ⟨fun type hm => ?_, List.pairwise_cons.mpr ⟨fun type hm heq => ?_, h.distinct⟩⟩
  · rcases List.mem_cons.mp hm with rfl | hm
    · exact hfree
    · have hnone := h.free type hm
      rw [find?_bind, if_neg (hnot type hm)] at hnone
      exact hnone
  · exact hnot type hm (congrArg (·, SymbolKind.type) heq.symm)

/-! ### Types that are registered ahead of time -/

/-- The table `u` sees all that `t` sees, and further types are bound in its innermost frame. -/
structure Precedes (later : List TypeSymbol) (t u : SymbolTable) : Prop where
  within : (t.bindTypes later).Within u
  new : t.New later
  below : t.Below u

theorem find?_bindTypes (t : SymbolTable) (types : List TypeSymbol) (name : String) {kind : SymbolKind}
    (hk : kind ≠ .type) : (t.bindTypes types).top.find? name kind = t.top.find? name kind := by
  induction types generalizing t with
  | nil => rfl
  | cons type types ih =>
      show ((t.bind (.type type)).bindTypes types).top.find? name kind = _
      rw [ih, find?_bind, if_neg]
      intro heq
      exact hk (congrArg Prod.snd heq)

theorem Within.bindTypes (h : t.Within u) (types : List TypeSymbol) :
    (t.bindTypes types).Within (u.bindTypes types) := by
  induction types generalizing t u with
  | nil => exact h
  | cons type types ih => exact ih (h.bind _)

/-- A symbol that is no type is bound before or after types. -/
theorem alike_bindTypes_bind (t : SymbolTable) (types : List TypeSymbol) {s : Symbol}
    (hs : s.kind ≠ .type) : Alike ((t.bind s).bindTypes types) ((t.bindTypes types).bind s) := by
  induction types generalizing t with
  | nil => exact .refl
  | cons type types ih =>
      have hkey : s.key ≠ Symbol.key (.type type) := fun heq => hs (congrArg Prod.snd heq)
      exact ((alike_bind_bind .refl hkey).bindTypes types).trans (ih (t.bind (.type type)))

namespace Precedes

variable {later : List TypeSymbol}

theorem of_within (h : t.Within u) : Precedes [] t u := ⟨h, ⟨by simp, .nil⟩, h.below⟩

theorem of_frames {t' u' : SymbolTable} (h : Precedes later t u) (ht : t'.frames = t.frames)
    (hu : u'.frames = u.frames) : Precedes later t' u' where
  within := (Within.of_alike ((Alike.of_frames ht).bindTypes later)).trans
    (h.within.trans (.of_alike (.of_frames hu.symm)))
  new := by
    have htop : t'.top = t.top := (List.cons.inj ht).1
    exact ⟨fun type hm => by rw [htop]; exact h.new.free type hm, h.new.distinct⟩
  below := by
    intro name kind s hs
    rw [(Alike.of_frames hu).lookup]
    rw [(Alike.of_frames ht).lookup] at hs
    exact h.below name kind s hs

theorem find? (h : Precedes later t u) (name : String) {kind : SymbolKind} (hk : kind ≠ .type) :
    t.top.find? name kind = u.top.find? name kind := by
  rw [← h.within.top, find?_bindTypes t later name hk]

theorem bind (h : Precedes later t u) {s : Symbol} (hs : s.kind ≠ .type) :
    Precedes later (t.bind s) (u.bind s) where
  within := (Within.of_alike (alike_bindTypes_bind t later hs)).trans (h.within.bind s)
  new := by
    refine ⟨fun type hm => ?_, h.new.distinct⟩
    rw [find?_bind, if_neg fun heq => hs (congrArg Prod.snd heq).symm]
    exact h.new.free type hm
  below := by
    intro name kind s' hs'
    rw [lookup_bind] at hs' ⊢
    split at hs'
    · rename_i hkey
      rw [if_pos hkey]
      exact hs'
    · rename_i hkey
      rw [if_neg hkey]
      exact h.below name kind s' hs'

end Precedes

end SymbolTable

namespace Decl

variable (machine : Option String)

theorem predeclare_type {t : SymbolTable} {d : TypeDecl}
    (h : t.top.find? d.ident .type = none) :
    (Decl.type d).predeclare t machine =
      (t.bind (.type { d.symbol machine with home := t.top.id }),
        (Decl.type d).settle machine t.top.id) := by
  have hdeclare := SymbolTable.declare_eq_ok.mpr
    ⟨show t.top.find? (Symbol.type (t.adopt (d.symbol machine))).name .type = none from h, rfl⟩
  simp only [predeclare, TypeDecl.predeclare, hdeclare]
  rfl

theorem symbols_cons (home : FrameId) (d : Decl) (ds : List Decl) :
    (d :: ds).filterMap (symbol? machine home) =
      (d.symbol? machine home).toList ++ ds.filterMap (symbol? machine home) := by
  rw [List.filterMap_cons]
  cases d.symbol? machine home <;> rfl

theorem predeclareAll_of_new {t : SymbolTable} {ds : List Decl}
    (h : t.New (ds.filterMap (symbol? machine t.top.id))) :
    predeclareAll t machine ds = (t.bindTypes (ds.filterMap (symbol? machine t.top.id)),
      ds.map (settle machine t.top.id)) := by
  induction ds generalizing t with
  | nil => rfl
  | cons d ds ih =>
      rw [symbols_cons] at h ⊢
      rw [predeclareAll_cons]
      cases d with
      | func d =>
          rw [show (Decl.func d).predeclare t machine = (t, .func d) from rfl, ih h]
          rfl
      | machine d =>
          rw [show (Decl.machine d).predeclare t machine = (t, .machine d) from rfl, ih h]
          rfl
      | type d =>
          have hfree := h.free _ List.mem_cons_self
          rw [predeclare_type machine hfree]
          exact congrArg (fun p : SymbolTable × List Pending =>
            (p.1, (Decl.type d).settle machine t.top.id :: p.2)) (ih h.tail)

theorem new_of_predeclareAll {t : SymbolTable} {ds : List Decl}
    (h : ∀ p ∈ (predeclareAll t machine ds).2, ¬p.Rejected) :
    t.New (ds.filterMap (symbol? machine t.top.id)) := by
  induction ds generalizing t with
  | nil => exact ⟨by simp, .nil⟩
  | cons d ds ih =>
      rw [predeclareAll_cons] at h
      obtain ⟨hd, hds⟩ := List.forall_mem_cons.mp h
      cases d with
      | func d => exact ih hds
      | machine d => exact ih hds
      | type d =>
          have hfree : t.top.find? d.ident .type = none := by
            cases hf : t.top.find? d.ident .type with
            | none => rfl
            | some s =>
                refine absurd ⟨d, .duplicate .type d.ident d.location, ?_⟩ hd
                simp only [predeclare, TypeDecl.predeclare, SymbolTable.declare]
                rw [show t.top.find? (Symbol.type (t.adopt (d.symbol machine))).name
                  (Symbol.type (t.adopt (d.symbol machine))).kind = some s from hf]
                rfl
          rw [predeclare_type machine hfree] at hds
          rw [symbols_cons]
          exact (ih hds).cons hfree

variable {machine}

theorem new_congr {t u : SymbolTable} (h : t.top.find? = u.top.find?) {types : List TypeSymbol}
    (hnew : t.New types) : u.New types := by
  refine ⟨fun type hm => ?_, hnew.distinct⟩
  rw [← h]
  exact hnew.free type hm

/-- If all types of a list get registered, they do so in any order and leave tables that are alike. -/
theorem predeclareAll_shuffled {same passes : Decl → Decl → Prop} {t u : SymbolTable}
    {ds ds' : List Decl} (h : Alike t u) (hid : t.top.id = u.top.id)
    (hsame : ∀ a b, same a b → a.symbol? machine t.top.id = b.symbol? machine t.top.id)
    (hl : Shuffled same passes ds ds')
    (hrejected : ∀ p ∈ (predeclareAll t machine ds).2, ¬p.Rejected) :
    Alike (predeclareAll t machine ds).1 (predeclareAll u machine ds').1 ∧
      (predeclareAll t machine ds).2 = ds.map (settle machine t.top.id) ∧
      (predeclareAll u machine ds').2 = ds'.map (settle machine t.top.id) := by
  have hnew := new_of_predeclareAll machine hrejected
  have hperm := hl.perm_filterMap hsame
  have hnew' := new_congr h.top (hnew.perm hperm)
  rw [hid] at hnew'
  rw [predeclareAll_of_new machine hnew, predeclareAll_of_new machine hnew', ← hid]
  exact ⟨SymbolTable.alike_bindTypes hperm hnew.distinct h, rfl, rfl⟩

end Decl

end Coherence
