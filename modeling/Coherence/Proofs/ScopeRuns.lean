import Coherence.Proofs.Invariant
import Mathlib.Data.List.Induction
/-!
# Scopes over whole runs

A run opens frames, closes them and binds symbols, in any order, and goes on when one of these fails
(`ScopeStep.runAll`); a guarded scope closes one frame at its end, whatever was done in it. Taken apart, a
run is a list of events, and its moments are the beginnings of that list.

What a symbol table answers at a moment is told from the events before it alone. A symbol `Stands` if it
was bound in a frame that is open still, that is, if the run was never less deep since. The answer for a
name of a kind is the one that stands deepest (`SymbolTable.Lexical`).
-/

namespace Coherence

/-- What is done to the frames of a symbol table. -/
inductive ScopeEvent
  | push (owner : Option String)
  | pop
  | declare (s : Symbol)

/-- What is done to the frames of a symbol table, with scopes that are closed by a guard. -/
inductive ScopeStep
  | push (owner : Option String)
  | pop
  | declare (s : Symbol)
  | guarded (owner : Option String) (body : List ScopeStep)

namespace SymbolTable

/-- The table that an operation leaves, the old one if it fails. -/
def settle (t : SymbolTable) : Except CompileError SymbolTable → SymbolTable
  | .ok u => u
  | .error _ => t

/-- The table that an event leaves. -/
def apply (t : SymbolTable) : ScopeEvent → SymbolTable
  | .push owner => t.push owner
  | .pop => t.settle t.pop
  | .declare s => t.settle (t.declare s)

def applyAll (t : SymbolTable) (events : List ScopeEvent) : SymbolTable := events.foldl apply t

/-- The table that is new at first after these events. -/
def after (past : List ScopeEvent) : SymbolTable := initial.applyAll past

@[simp]
theorem after_nil : after [] = initial := rfl

@[simp]
theorem after_concat (past : List ScopeEvent) (e : ScopeEvent) :
    after (past ++ [e]) = (after past).apply e := by
  simp [after, applyAll]

end SymbolTable

namespace ScopeStep

mutual

/-- The table that a step leaves. -/
def run (t : SymbolTable) : ScopeStep → SymbolTable
  | .push owner => t.push owner
  | .pop => t.settle t.pop
  | .declare s => t.settle (t.declare s)
  | .guarded owner body => (runAll (t.push owner) body).close

def runAll (t : SymbolTable) : List ScopeStep → SymbolTable
  | [] => t
  | s :: rest => runAll (run t s) rest

end

mutual

def events : ScopeStep → List ScopeEvent
  | .push owner => [.push owner]
  | .pop => [.pop]
  | .declare s => [.declare s]
  | .guarded owner body => .push owner :: (eventsAll body ++ [.pop])

def eventsAll : List ScopeStep → List ScopeEvent
  | [] => []
  | s :: rest => events s ++ eventsAll rest

end

mutual

theorem run_eq (t : SymbolTable) : ∀ s : ScopeStep, s.run t = t.applyAll s.events
  | .push _ => rfl
  | .pop => rfl
  | .declare _ => rfl
  | .guarded owner body => by
      rw [run, events, runAll_eq (t.push owner) body]
      simp only [SymbolTable.applyAll, List.foldl_cons, List.foldl_append, List.foldl_nil]
      rfl

theorem runAll_eq (t : SymbolTable) : ∀ ss : List ScopeStep, runAll t ss = t.applyAll (eventsAll ss)
  | [] => rfl
  | s :: rest => by
      rw [runAll, eventsAll, runAll_eq (s.run t) rest, run_eq t s]
      simp only [SymbolTable.applyAll, List.foldl_append]

end

theorem runAll_append (t : SymbolTable) (ss rest : List ScopeStep) :
    runAll t (ss ++ rest) = runAll (runAll t ss) rest := by
  induction ss generalizing t with
  | nil => rfl
  | cons s ss ih => exact ih (s.run t)

end ScopeStep

namespace SymbolTable

/-! ### Frames by their depth -/

variable {t u : SymbolTable} {n : Nat} {s : Symbol}

/-- The frame with this many frames around it. -/
def level (t : SymbolTable) (n : Nat) : Option Frame := t.frames.reverse[n]?

theorem depth_eq (t : SymbolTable) : t.depth = t.outer.length + 1 := rfl

theorem level_eq (t : SymbolTable) (n : Nat) :
    t.level n = if n = t.outer.length then some t.top else t.outer.reverse[n]? := by
  unfold level frames
  rw [List.reverse_cons]
  split
  · rename_i h
    rw [h, ← List.length_reverse, List.getElem?_concat_length]
  · rename_i h
    rw [List.getElem?_append]
    split
    · rfl
    · rename_i hlt
      rw [List.length_reverse] at hlt
      rw [List.getElem?_eq_none (by simp; omega), List.getElem?_eq_none (by simp; omega)]

/-- The frame with this many frames around it binds the symbol. -/
def Holds (t : SymbolTable) (n : Nat) (s : Symbol) : Prop :=
  ∃ f, t.level n = some f ∧ f.find? s.name s.kind = some s

theorem Holds.lt_depth (h : t.Holds n s) : n < t.depth := by
  obtain ⟨f, hf, -⟩ := h
  have hlt := (List.getElem?_eq_some_iff.mp hf).1
  rwa [List.length_reverse] at hlt

theorem Holds.unique {s' : Symbol} (h : t.Holds n s) (h' : t.Holds n s') (hkey : s'.key = s.key) :
    s' = s := by
  obtain ⟨f, hf, hs⟩ := h
  obtain ⟨f', hf', hs'⟩ := h'
  obtain ⟨hname, hkind⟩ := Symbol.key_eq_iff.mp hkey
  cases hf.symm.trans hf'
  rw [hname, hkind, hs] at hs'
  exact (Option.some.inj hs').symm

theorem holds_top : t.Holds t.outer.length s ↔ t.top.find? s.name s.kind = some s := by
  unfold Holds
  simp [level_eq]

theorem holds_of_ne (h : n ≠ t.outer.length) :
    t.Holds n s ↔ ∃ f, t.outer.reverse[n]? = some f ∧ f.find? s.name s.kind = some s := by
  unfold Holds
  rw [level_eq, if_neg h]

theorem holds_initial : initial.Holds n s ↔ n = 0 ∧ s = .type .void := by
  by_cases hn : n = 0
  · subst hn
    have htop : initial.Holds 0 s ↔ _ := holds_top
    rw [htop]
    constructor
    · intro h
      obtain ⟨l₁, l₂, hsplit, -⟩ := List.lookup_eq_some_iff.mp h
      have hmem : ((s.name, s.kind), s) ∈ initial.top.symbols := by
        rw [hsplit]
        simp
      exact ⟨rfl, congrArg Prod.snd (List.mem_singleton.mp hmem)⟩
    · rintro ⟨-, rfl⟩
      decide
  · rw [holds_of_ne hn]
    simp [initial, hn]

theorem holds_push (owner : Option String) : (t.push owner).Holds n s ↔ t.Holds n s := by
  by_cases hn : n = t.frames.length
  · constructor
    · intro h
      have htop : (t.push owner).Holds (t.push owner).outer.length s := hn ▸ h
      cases holds_top.mp htop
    · intro h
      exact absurd h.lt_depth (by rw [hn]; exact Nat.lt_irrefl _)
  · exact holds_of_ne hn

theorem holds_bind {s' : Symbol} (hfree : t.top.find? s'.name s'.kind = none) :
    (t.bind s').Holds n s ↔ t.Holds n s ∨ n = t.outer.length ∧ s = s' := by
  by_cases hn : n = t.outer.length
  · subst hn
    have htop : (t.bind s').Holds t.outer.length s ↔ _ := holds_top
    rw [htop, holds_top, find?_bind]
    split
    · rename_i hkey
      obtain ⟨hname, hkind⟩ := Symbol.key_eq_iff.mp hkey
      simp [hname, hkind, hfree, eq_comm]
    · rename_i hkey
      have hne : s ≠ s' := fun heq => hkey (by rw [heq]; rfl)
      simp [hne]
  · have hbind : (t.bind s').Holds n s ↔ _ := holds_of_ne hn
    rw [hbind, holds_of_ne hn]
    simp [hn, bind]

theorem holds_pop (h : t.pop = .ok u) : u.Holds n s ↔ t.Holds n s ∧ n + 1 < t.depth := by
  obtain ⟨houter, -, -⟩ := pop_eq_ok.mp h
  have hlevel : u.level n = t.outer.reverse[n]? := by rw [houter]; rfl
  have hdepth : u.depth + 1 = t.depth := by rw [depth_eq t, houter]; rfl
  constructor
  · intro hu
    have hlt := hu.lt_depth
    have hn : n ≠ t.outer.length := by
      have := depth_eq t
      omega
    obtain ⟨f, hf, hs⟩ := hu
    exact ⟨(holds_of_ne hn).mpr ⟨f, hlevel ▸ hf, hs⟩, by omega⟩
  · rintro ⟨ht, hlt⟩
    have hn : n ≠ t.outer.length := by
      have := depth_eq t
      omega
    obtain ⟨f, hf, hs⟩ := (holds_of_ne hn).mp ht
    exact ⟨f, hlevel.trans hf, hs⟩

/-! ### Lookups by depth -/

/-- Nothing is found exactly if no frame binds a symbol of the name and kind. -/
theorem lookup_eq_none (h : t.Keyed) {name : String} {kind : SymbolKind} :
    t.lookup name kind = none ↔ ∀ n s, t.Holds n s → s.key ≠ (name, kind) := by
  unfold lookup
  rw [List.findSome?_eq_none_iff]
  constructor
  · rintro hnone n s ⟨f, hf, hs⟩ hkey
    obtain ⟨rfl, rfl⟩ := Symbol.key_eq_iff.mp hkey
    have hfree := hnone f (List.mem_reverse.mp (List.mem_of_getElem? hf))
    rw [hs] at hfree
    cases hfree
  · intro hnone f hf
    cases hs : f.find? name kind with
    | none => rfl
    | some s =>
        have hkey := h.key_of_find? hf hs
        obtain ⟨n, hn⟩ := List.mem_iff_getElem?.mp (List.mem_reverse.mpr hf)
        obtain ⟨rfl, rfl⟩ := Symbol.key_eq_iff.mp hkey
        exact absurd hkey (hnone n s ⟨f, hn, hs⟩)

/-- A symbol that is found is the one of its name and kind that is bound deepest. -/
theorem holds_of_lookup (h : t.Keyed) {name : String} {kind : SymbolKind}
    (hs : t.lookup name kind = some s) :
    s.key = (name, kind) ∧ ∃ n, t.Holds n s ∧
      ∀ m s', t.Holds m s' → s'.key = (name, kind) → m ≤ n := by
  have hkey := h.key_of_lookup hs
  obtain ⟨rfl, rfl⟩ := Symbol.key_eq_iff.mp hkey
  obtain ⟨l₁, f, l₂, hsplit, hfind, hnone⟩ := List.findSome?_eq_some_iff.mp hs
  have hreverse : t.frames.reverse = l₂.reverse ++ ([f] ++ l₁.reverse) := by simp [hsplit]
  refine ⟨hkey, l₂.length, ⟨f, ?_, hfind⟩, ?_⟩
  · rw [level, hreverse, List.getElem?_append_right (by simp)]
    simp
  · rintro m s' ⟨g, hg, hs'⟩ hkey'
    obtain ⟨hname, hkind⟩ := Symbol.key_eq_iff.mp hkey'
    refine Nat.not_lt.mp fun hlt => ?_
    -- A frame further in does not bind the name.
    rw [level, hreverse, List.getElem?_append_right (by simp; omega),
      List.getElem?_append_right (by simp; omega)] at hg
    have hfree := hnone g (List.mem_reverse.mp (List.mem_of_getElem? hg))
    rw [← hname, ← hkind, hs'] at hfree
    cases hfree

theorem lookup_of_holds (h : t.Keyed) {name : String} {kind : SymbolKind} (hs : t.Holds n s)
    (hkey : s.key = (name, kind))
    (hdeepest : ∀ m s', t.Holds m s' → s'.key = (name, kind) → m ≤ n) :
    t.lookup name kind = some s := by
  cases hfound : t.lookup name kind with
  | none => exact absurd hkey ((lookup_eq_none h).mp hfound n s hs)
  | some s' =>
      obtain ⟨hkey', m, hs', hdeepest'⟩ := holds_of_lookup h hfound
      have hm : m = n := Nat.le_antisymm (hdeepest m s' hs' hkey') (hdeepest' n s hs hkey)
      subst hm
      rw [hs.unique hs' (hkey'.trans hkey.symm)]

/-! ### Symbols that stand -/

/-- The symbol was bound at this depth, and its frame is open still: the run was never less deep since.
The table starts with `void` in its outermost frame. -/
inductive Stands (past : List ScopeEvent) : Nat → Symbol → Prop
  | void : Stands past 1 (.type .void)
  | bound {p : List ScopeEvent} {s : Symbol} {u : SymbolTable} : p ++ [.declare s] <+: past →
      (after p).declare s = .ok u →
      (∀ q, p <+: q → q <+: past → (after p).depth ≤ (after q).depth) →
      Stands past (after p).depth s

variable {past : List ScopeEvent} {e : ScopeEvent} {d : Nat}

/-- What stands after one more event stood before it, in a frame that the event leaves open, or is what
the event binds. -/
theorem stands_concat :
    Stands (past ++ [e]) d s ↔
      Stands past d s ∧ d ≤ (after (past ++ [e])).depth ∨
        e = .declare s ∧ d = (after past).depth ∧ ∃ u, (after past).declare s = .ok u := by
  constructor
  · intro h
    cases h with
    | void => exact .inl ⟨.void, depth_pos _⟩
    | @bound p _ u hp hu hopen =>
        rcases List.prefix_concat_iff.mp hp with heq | hp'
        · obtain ⟨rfl, he⟩ := List.append_inj' heq rfl
          exact .inr ⟨(List.cons.inj he).1.symm, rfl, u, hu⟩
        · have hlast := hopen (past ++ [e]) ((List.prefix_append _ _).trans hp) (List.prefix_refl _)
          exact .inl ⟨.bound hp' hu fun q hq hq' =>
            hopen q hq (hq'.trans (List.prefix_append _ _)), hlast⟩
  · rintro (⟨h, hd⟩ | ⟨rfl, rfl, u, hu⟩)
    · cases h with
      | void => exact .void
      | @bound p _ u hp hu hopen =>
          refine .bound (hp.trans (List.prefix_append _ _)) hu fun q hq hq' => ?_
          rcases List.prefix_concat_iff.mp hq' with rfl | hq'
          · exact hd
          · exact hopen q hq hq'
    · refine .bound (List.prefix_refl _) hu fun q hq hq' => ?_
      rcases List.prefix_concat_iff.mp hq' with rfl | hq'
      · obtain ⟨-, rfl⟩ := declare_eq_ok.mp hu
        have hdepth : (after (past ++ [.declare s])).depth = (after past).depth := by
          rw [after_concat, apply, hu]
          rfl
        exact Nat.le_of_eq hdepth.symm
      · obtain rfl := hq.eq_of_length_le hq'.length_le
        exact Nat.le_refl _

/-- The frames bind the symbols that stand. -/
theorem holds_after : (after past).Holds n s ↔ Stands past (n + 1) s := by
  induction past using List.reverseRecOn generalizing n s with
  | nil =>
      rw [after_nil, holds_initial]
      constructor
      · rintro ⟨rfl, rfl⟩
        exact .void
      · intro h
        generalize hd : n + 1 = d at h
        cases h with
        | void => exact ⟨Nat.succ.inj hd, rfl⟩
        | bound hp => simp at hp
  | append_singleton past e ih =>
      rw [stands_concat, after_concat, ← ih]
      cases e with
      | push owner =>
          simp only [apply, holds_push, depth_push, reduceCtorEq, false_and, or_false]
          exact ⟨fun h => ⟨h, by have := h.lt_depth; omega⟩, And.left⟩
      | pop =>
          simp only [apply, reduceCtorEq, false_and, or_false]
          cases hu : (after past).pop with
          | error e => exact ⟨fun h => ⟨h, h.lt_depth⟩, And.left⟩
          | ok u =>
              obtain ⟨houter, -, -⟩ := pop_eq_ok.mp hu
              have hdepth : u.depth + 1 = (after past).depth := by
                rw [depth_eq (after past), houter]
                rfl
              show u.Holds n s ↔ _ ∧ n + 1 ≤ u.depth
              rw [holds_pop hu]
              exact and_congr_right fun _ => by omega
      | declare s' =>
          simp only [apply, ScopeEvent.declare.injEq]
          cases hu : (after past).declare s' with
          | error e =>
              show (after past).Holds n s ↔ _
              constructor
              · exact fun h => .inl ⟨h, h.lt_depth⟩
              · rintro (⟨h, -⟩ | ⟨rfl, -, u, hu'⟩)
                · exact h
                · rw [hu] at hu'
                  cases hu'
          | ok u =>
              obtain ⟨hfree, rfl⟩ := declare_eq_ok.mp hu
              show ((after past).bind s').Holds n s ↔ _
              rw [holds_bind hfree]
              constructor
              · rintro (h | ⟨rfl, rfl⟩)
                · exact .inl ⟨h, h.lt_depth⟩
                · exact .inr ⟨rfl, rfl, _, hu⟩
              · rintro (⟨h, -⟩ | ⟨rfl, hn, -⟩)
                · exact .inl h
                · exact .inr ⟨Nat.succ.inj hn, rfl⟩

theorem Stands.exists_level (h : Stands past d s) : ∃ n, d = n + 1 := by
  cases h with
  | void => exact ⟨0, rfl⟩
  | bound => exact ⟨_, depth_eq _⟩

theorem Keyed.apply (h : t.Keyed) (e : ScopeEvent) : (t.apply e).Keyed := by
  cases e with
  | push owner => exact h.push
  | pop =>
      show (t.settle t.pop).Keyed
      cases hu : t.pop with
      | error e => exact h
      | ok u =>
          obtain ⟨houter, -, -⟩ := pop_eq_ok.mp hu
          intro f hf
          rw [show (t.settle (.ok u)).frames = t.outer from houter.symm] at hf
          exact h f (List.mem_cons_of_mem _ hf)
  | declare s =>
      show (t.settle (t.declare s)).Keyed
      cases hu : t.declare s with
      | error e => exact h
      | ok u =>
          obtain ⟨-, rfl⟩ := declare_eq_ok.mp hu
          exact h.bind s

theorem keyed_after (past : List ScopeEvent) : (after past).Keyed := by
  induction past using List.reverseRecOn with
  | nil => exact Sound.initial.keyed
  | append_singleton past e ih =>
      rw [after_concat]
      exact ih.apply e

end SymbolTable

/-! ### Well-nested steps -/

/-- Every frame that is opened is closed again, and no other one. -/
inductive ScopeStep.WellNested : List ScopeStep → Prop
  | nil : WellNested []
  | declare {s : Symbol} {rest : List ScopeStep} : WellNested rest → WellNested (.declare s :: rest)
  | scope {owner : Option String} {body rest : List ScopeStep} : WellNested body → WellNested rest →
      WellNested (.push owner :: (body ++ .pop :: rest))
  | guarded {owner : Option String} {body rest : List ScopeStep} : WellNested body →
      WellNested rest → WellNested (.guarded owner body :: rest)

namespace ScopeStep

open SymbolTable (after)

theorem frames_settle_pop {t : SymbolTable} {fs : List Frame} (houter : t.outer = fs)
    (hne : fs ≠ []) : (t.settle t.pop).frames = fs := by
  cases hu : t.pop with
  | error e => exact absurd ((SymbolTable.pop_eq_error.mp hu).1) (houter ▸ hne)
  | ok u => exact (SymbolTable.pop_eq_ok.mp hu).1.symm.trans houter

/-- Well-nested steps touch no frame but the innermost one. -/
theorem WellNested.outer {steps : List ScopeStep} (h : WellNested steps) (t : SymbolTable) :
    (runAll t steps).outer = t.outer := by
  induction h generalizing t with
  | nil => rfl
  | @declare s rest _ ih =>
      rw [runAll, ih, run]
      cases hu : t.declare s with
      | error e => rfl
      | ok u =>
          obtain ⟨-, rfl⟩ := SymbolTable.declare_eq_ok.mp hu
          rfl
  | @scope owner body rest _ _ ih ih' =>
      rw [runAll, runAll_append, runAll, ih', run, run]
      exact congrArg List.tail (frames_settle_pop (ih (t.push owner)) (List.cons_ne_nil _ _))
  | @guarded owner body rest _ _ ih ih' =>
      rw [runAll, ih', run]
      exact congrArg List.tail (frames_settle_pop (ih (t.push owner)) (List.cons_ne_nil _ _))

/-- The frames after a well-nested scope are those before it. -/
theorem WellNested.frames_scope {body : List ScopeStep} (h : WellNested body) (t : SymbolTable)
    (owner : Option String) :
    (runAll t (.push owner :: (body ++ [.pop]))).frames = t.frames := by
  rw [runAll, runAll_append, run, runAll, runAll, run]
  exact frames_settle_pop (h.outer (t.push owner)) (List.cons_ne_nil _ _)

theorem WellNested.frames_guarded {body : List ScopeStep} (h : WellNested body) (t : SymbolTable)
    (owner : Option String) : (runAll t [.guarded owner body]).frames = t.frames := by
  rw [runAll, runAll, run]
  exact frames_settle_pop (h.outer (t.push owner)) (List.cons_ne_nil _ _)

end ScopeStep

/-! ### Answers by lexical scope -/

namespace SymbolTable

open ScopeStep (WellNested runAll eventsAll)

/-- What is known of the table after these events. -/
structure Lexical (past : List ScopeEvent) : Prop where
  depth : 1 ≤ (after past).depth
  popFails : (∃ e, (after past).pop = .error e) ↔ (after past).depth = 1
  popFailed : ∀ e, (after past).pop = .error e → after (past ++ [.pop]) = after past
  /-- A symbol is refused if one of its name and kind stands in the innermost frame. -/
  declareFails : ∀ s, (∃ e, (after past).declare s = .error e) ↔
    ∃ s', Stands past (after past).depth s' ∧ s'.key = s.key
  declareFailed : ∀ s e, (after past).declare s = .error e →
    after (past ++ [.declare s]) = after past
  /-- The symbol that is found stands deepest among those of the name and kind. -/
  found : ∀ name kind s, (after past).lookup name kind = some s ↔
    s.key = (name, kind) ∧ ∃ d, Stands past d s ∧
      ∀ d' s', Stands past d' s' → s'.key = (name, kind) → d' ≤ d
  unfound : ∀ name kind, (after past).lookup name kind = none ↔
    ∀ d s, Stands past d s → s.key ≠ (name, kind)
  named : ∀ name kind s, (after past).lookup name kind = some s → s.name = name ∧ s.kind = kind
  /-- A well-nested scope leaves all answers as they are. -/
  scope : ∀ owner body, WellNested body →
    (runAll (after past) (.push owner :: (body ++ [.pop]))).lookup = (after past).lookup
  guarded : ∀ owner body, WellNested body →
    (runAll (after past) [.guarded owner body]).lookup = (after past).lookup

theorem lookup_of_frames {t u : SymbolTable} (h : u.frames = t.frames) : u.lookup = t.lookup := by
  funext name kind
  unfold lookup
  rw [h]

theorem lexical (past : List ScopeEvent) : Lexical past where
  depth := depth_pos _
  popFails := by
    simp only [pop_eq_error, exists_and_left, exists_eq, and_true]
    rw [depth_eq, ← List.length_eq_zero_iff]
    omega
  popFailed := by
    intro e he
    rw [after_concat, apply, he]
    rfl
  declareFails := by
    intro s
    simp only [declare_eq_error, exists_and_left, exists_eq, and_true]
    rw [depth_eq]
    constructor
    · intro hne
      obtain ⟨s', hs'⟩ := Option.ne_none_iff_exists'.mp hne
      have hkey := (keyed_after past).key_of_find? List.mem_cons_self hs'
      obtain ⟨hname, hkind⟩ := Symbol.key_eq_iff.mp hkey
      refine ⟨s', holds_after.mp (holds_top.mpr ?_), hkey⟩
      rw [hname, hkind]
      exact hs'
    · rintro ⟨s', hstands, hkey⟩
      have hs' := holds_top.mp (holds_after.mpr hstands)
      obtain ⟨hname, hkind⟩ := Symbol.key_eq_iff.mp hkey
      rw [hname, hkind] at hs'
      rw [hs']
      simp
  declareFailed := by
    intro s e he
    rw [after_concat, apply, he]
    rfl
  found := by
    intro name kind s
    constructor
    · intro h
      obtain ⟨hkey, n, hs, hdeepest⟩ := holds_of_lookup (keyed_after past) h
      refine ⟨hkey, n + 1, holds_after.mp hs, fun d s' hs' hkey' => ?_⟩
      obtain ⟨m, rfl⟩ := hs'.exists_level
      exact Nat.succ_le_succ (hdeepest m s' (holds_after.mpr hs') hkey')
    · rintro ⟨hkey, d, hs, hdeepest⟩
      obtain ⟨n, rfl⟩ := hs.exists_level
      refine lookup_of_holds (keyed_after past) (holds_after.mpr hs) hkey fun m s' hs' hkey' => ?_
      exact Nat.le_of_succ_le_succ (hdeepest (m + 1) s' (holds_after.mp hs') hkey')
  unfound := by
    intro name kind
    rw [lookup_eq_none (keyed_after past)]
    constructor
    · intro h d s hs
      obtain ⟨n, rfl⟩ := hs.exists_level
      exact h n s (holds_after.mpr hs)
    · exact fun h n s hs => h (n + 1) s (holds_after.mp hs)
  named := by
    intro name kind s h
    exact Symbol.key_eq_iff.mp ((keyed_after past).key_of_lookup h)
  scope := fun owner body h => lookup_of_frames (h.frames_scope _ owner)
  guarded := fun owner body h => lookup_of_frames (h.frames_guarded _ owner)

/-- Every run leaves what its events leave, and at each of its moments, also inside guarded scopes, the
symbol table answers by lexical scope. -/
theorem runs_answer_lexically (steps : List ScopeStep) :
    runAll initial steps = after (eventsAll steps) ∧
    ∀ past, past <+: eventsAll steps → Lexical past :=
  ⟨ScopeStep.runAll_eq _ _, fun past _ => lexical past⟩

/-- A variable that is hidden twice. The guarded scope closes the frame around it, and two steps fail: the
outermost frame is not closed, and `x` is not bound there a second time. -/
def hidden : List ScopeStep := [
  .declare (.var { ident := "x", type := .void }),
  .push none,
  .declare (.var { ident := "x", type := .builtin "int" none }),
  .guarded none [.declare (.var { ident := "y", type := .void }), .pop],
  .pop,
  .declare (.var { ident := "x", type := .builtin "bool" none }),
  .push none,
  .declare (.var { ident := "x", type := .builtin "string" none })]

theorem runs_answer_lexically_hidden :
    Lexical (eventsAll hidden) ∧ runAll initial hidden = after (eventsAll hidden) ∧
      (after (eventsAll hidden)).depth = 2 ∧
      (after (eventsAll hidden)).lookup "x" .var =
        some (.var { ident := "x", type := .builtin "string" none }) ∧
      (after (eventsAll hidden)).lookup "y" .var = none := by
  obtain ⟨hrun, hlexical⟩ := runs_answer_lexically hidden
  exact ⟨hlexical _ (List.prefix_refl _), hrun, by decide, by decide, by decide⟩

end SymbolTable

end Coherence
