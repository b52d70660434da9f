/-!
# Rearranged lists, and runs over them

A list is rearranged step by step: two neighbours that may pass each other change places, or an item
gives way to one that counts as the same (`Shuffled`). A run whose steps do not notice such a step of
rearrangement ends, on the rearranged list, in a state that is as good (`Shuffled.runs`).
-/

namespace Coherence

variable {α β σ : Type}

/-- The second list is a rearrangement of the first. -/
inductive Shuffled (same passes : α → α → Prop) : List α → List α → Prop
  | nil : Shuffled same passes [] []
  | cons {a b l l'} : same a b → Shuffled same passes l l' → Shuffled same passes (a :: l) (b :: l')
  | swap {a b l} : passes a b → Shuffled same passes (a :: b :: l) (b :: a :: l)
  | trans {l₁ l₂ l₃} : Shuffled same passes l₁ l₂ → Shuffled same passes l₂ l₃ →
      Shuffled same passes l₁ l₃

namespace Shuffled

variable {same passes : α → α → Prop} {l l' : List α}

theorem refl (hsame : ∀ a, same a a) : ∀ l : List α, Shuffled same passes l l
  | [] => .nil
  | a :: l => .cons (hsame a) (refl hsame l)

theorem append_left (hsame : ∀ a, same a a) (h : Shuffled same passes l l') :
    ∀ k : List α, Shuffled same passes (k ++ l) (k ++ l')
  | [] => h
  | a :: k => .cons (hsame a) (append_left hsame h k)

theorem append_right (hsame : ∀ a, same a a) (h : Shuffled same passes l l') (k : List α) :
    Shuffled same passes (l ++ k) (l' ++ k) := by
  induction h with
  | nil => exact refl hsame k
  | cons ha _ ih => exact .cons ha ih
  | swap hp => exact .swap hp
  | trans _ _ ih₁ ih₂ => exact ih₁.trans ih₂

theorem append {k k' : List α} (hsame : ∀ a, same a a) (h : Shuffled same passes l l')
    (h' : Shuffled same passes k k') : Shuffled same passes (l ++ k) (l' ++ k') :=
  (h.append_right hsame k).trans (h'.append_left hsame l')

theorem symm (hsame : ∀ {a b}, same a b → same b a) (hpasses : ∀ {a b}, passes a b → passes b a)
    (h : Shuffled same passes l l') : Shuffled same passes l' l := by
  induction h with
  | nil => exact .nil
  | cons hab _ ih => exact .cons (hsame hab) ih
  | swap hp => exact .swap (hpasses hp)
  | trans _ _ ih₁ ih₂ => exact ih₂.trans ih₁

theorem cons_comm (hsame : ∀ a, same a a) {a : α} :
    ∀ l k : List α, (∀ b ∈ l, passes a b) → Shuffled same passes (a :: (l ++ k)) (l ++ a :: k)
  | [], k, _ => refl hsame (a :: k)
  | b :: l, k, hpass =>
      have hrest : ∀ c ∈ l, passes a c := fun c hc => hpass c (List.mem_cons_of_mem b hc)
      .trans (.swap (hpass b List.mem_cons_self)) (.cons (hsame b) (cons_comm hsame l k hrest))

theorem append_comm (hsame : ∀ a, same a a) (hpass : ∀ a b, passes a b) :
    ∀ l k : List α, Shuffled same passes (l ++ k) (k ++ l)
  | [], k => by
      rw [List.nil_append, List.append_nil]
      exact refl hsame k
  | a :: l, k => .trans (.cons (hsame a) (append_comm hsame hpass l k))
      (cons_comm hsame k l fun b _ => hpass a b)

/-- Items that pass each other can be put in any order. -/
theorem of_perm (hsame : ∀ a, same a a) (hp : l.Perm l') (hpass : ∀ a ∈ l, ∀ b ∈ l, passes a b) :
    Shuffled same passes l l' := by
  induction hp with
  | nil => exact .nil
  | cons a _ ih =>
      exact .cons (hsame a) (ih fun b hb c hc =>
        hpass b (List.mem_cons_of_mem a hb) c (List.mem_cons_of_mem a hc))
  | swap a b l =>
      exact .trans (.swap (hpass b List.mem_cons_self a (List.mem_cons_of_mem b List.mem_cons_self)))
        (refl hsame _)
  | trans hp₁ _ ih₁ ih₂ =>
      exact (ih₁ hpass).trans (ih₂ fun b hb c hc =>
        hpass b (hp₁.mem_iff.mpr hb) c (hp₁.mem_iff.mpr hc))

section Filter

variable (p : α → Prop) [DecidablePred p]

/-- Items that pass all others go to the front. -/
theorem filter_append (hsame : ∀ a, same a a) (hpass : ∀ a b, p b → passes a b) :
    ∀ l : List α, Shuffled same passes l (l.filter (p ·) ++ l.filter (¬p ·))
  | [] => .nil
  | a :: l => by
      have ih := Shuffled.cons (hsame a) (filter_append hsame hpass l)
      by_cases ha : p a
      · rw [List.filter_cons_of_pos (by simpa using ha), List.filter_cons_of_neg (by simpa using ha)]
        exact ih
      · rw [List.filter_cons_of_neg (by simpa using ha), List.filter_cons_of_pos (by simpa using ha)]
        refine ih.trans (cons_comm hsame _ _ fun b hb => hpass a b ?_)
        simpa using (List.mem_filter.mp hb).2

/-- Of two lists the one is a rearrangement of the other if this holds without the items that pass
all others, and both have the same of these. -/
theorem of_filter (hsame : ∀ {a b}, same a b → same b a) (hrefl : ∀ a, same a a)
    (hpasses : ∀ {a b}, passes a b → passes b a) (hpass : ∀ a b, p b → passes a b)
    (hp : (l.filter (p ·)).Perm (l'.filter (p ·)))
    (hrest : Shuffled same passes (l.filter (¬p ·)) (l'.filter (¬p ·))) :
    Shuffled same passes l l' := by
  have hfront : ∀ l : List α, Shuffled same passes l (l.filter (p ·) ++ l.filter (¬p ·)) :=
    filter_append p hrefl hpass
  have hfree : Shuffled same passes (l.filter (p ·)) (l'.filter (p ·)) := by
    refine of_perm hrefl hp fun a _ b hb => hpass a b ?_
    simpa using (List.mem_filter.mp hb).2
  exact (hfront l).trans ((hfree.append hrefl hrest).trans ((hfront l').symm hsame hpasses))

end Filter

/-- Rearranging is changing the order, where what counts as the same is the same. -/
theorem perm_filterMap {f : α → Option β} (hf : ∀ a b, same a b → f a = f b)
    (h : Shuffled same passes l l') : (l.filterMap f).Perm (l'.filterMap f) := by
  induction h with
  | nil => exact .refl _
  | @cons a b l l' hab _ ih =>
      rw [List.filterMap_cons, List.filterMap_cons, hf a b hab]
      cases f b with
      | none => exact ih
      | some y => exact ih.cons y
  | @swap a b l _ =>
      rw [List.filterMap_cons, List.filterMap_cons, List.filterMap_cons, List.filterMap_cons]
      cases f a with
      | none => exact .refl _
      | some x =>
          cases f b with
          | none => exact .refl _
          | some y => exact .swap y x _
  | trans _ _ ih₁ ih₂ => exact ih₁.trans ih₂

theorem perm_flatMap {f : α → List β} (hf : ∀ a b, same a b → (f a).Perm (f b))
    (h : Shuffled same passes l l') : (l.flatMap f).Perm (l'.flatMap f) := by
  induction h with
  | nil => exact .refl _
  | @cons a b l l' hab _ ih =>
      rw [List.flatMap_cons, List.flatMap_cons]
      exact (hf a b hab).append ih
  | @swap a b l _ =>
      simp only [List.flatMap_cons]
      exact List.perm_append_comm_assoc _ _ _
  | trans _ _ ih₁ ih₂ => exact ih₁.trans ih₂

theorem forall_mem {P : α → Prop} (hP : ∀ a b, same a b → P a → P b)
    (h : Shuffled same passes l l') (hl : ∀ a ∈ l, P a) : ∀ b ∈ l', P b := by
  induction h with
  | nil => exact hl
  | @cons a b l l' hab _ ih =>
      obtain ⟨ha, hl⟩ := List.forall_mem_cons.mp hl
      exact List.forall_mem_cons.mpr ⟨hP a b hab ha, ih hl⟩
  | swap _ =>
      obtain ⟨ha, hl⟩ := List.forall_mem_cons.mp hl
      obtain ⟨hb, hl⟩ := List.forall_mem_cons.mp hl
      exact List.forall_mem_cons.mpr ⟨hb, List.forall_mem_cons.mpr ⟨ha, hl⟩⟩
  | trans _ _ ih₁ ih₂ => exact ih₂ (ih₁ hl)

theorem map {same' passes' : β → β → Prop} {f : α → β} (hsame : ∀ a b, same a b → same' (f a) (f b))
    (hpasses : ∀ a b, passes a b → passes' (f a) (f b)) (h : Shuffled same passes l l') :
    Shuffled same' passes' (l.map f) (l'.map f) := by
  induction h with
  | nil => exact .nil
  | cons hab _ ih => exact .cons (hsame _ _ hab) ih
  | swap hp => exact .swap (hpasses _ _ hp)
  | trans _ _ ih₁ ih₂ => exact ih₁.trans ih₂

end Shuffled

/-! ### Runs -/

/-- The items are worked off one after another. -/
inductive Runs (step : σ → α → σ → Prop) : σ → List α → σ → Prop
  | nil {s} : Runs step s [] s
  | cons {s s' s'' a l} : step s a s' → Runs step s' l s'' → Runs step s (a :: l) s''

theorem Runs.forall_mem {step : σ → α → σ → Prop} {s s' : σ} {l : List α} (h : Runs step s l s') :
    ∀ a ∈ l, ∃ t t', step t a t' := by
  induction h with
  | nil => simp
  | cons hstep _ ih => exact List.forall_mem_cons.mpr ⟨⟨_, _, hstep⟩, ih⟩

/-- The steps do not notice how the items that are still to come are arranged. What holds before a
step is `inv`, and `sim` relates states that are as good as each other. -/
structure Oblivious (step : σ → α → σ → Prop) (inv : σ → List α → Prop) (sim : σ → σ → Prop)
    (same passes : α → α → Prop) : Prop where
  same_refl : ∀ a, same a a
  sim_refl : ∀ s, sim s s
  sim_trans : ∀ {s t u}, sim s t → sim t u → sim s u
  inv_step : ∀ {s s' a l}, inv s (a :: l) → step s a s' → inv s' l
  inv_shuffled : ∀ {s l l'}, inv s l → Shuffled same passes l l' → inv s l'
  step_same : ∀ {s s' u a b l l'}, inv s (a :: l) → inv u (b :: l') → sim s u → same a b →
    step s a s' → ∃ u', step u b u' ∧ sim s' u'
  step_swap : ∀ {s s₁ s₂ a b l}, inv s (a :: b :: l) → passes a b → step s a s₁ → step s₁ b s₂ →
    ∃ u₁ u₂, step s b u₁ ∧ step u₁ a u₂ ∧ sim s₂ u₂

namespace Oblivious

variable {step : σ → α → σ → Prop} {inv : σ → List α → Prop} {sim : σ → σ → Prop}
  {same passes : α → α → Prop} {s s' u : σ} {l l' : List α}

theorem runs_of_sim (h : Oblivious step inv sim same passes) (hs : inv s l) (hu : inv u l)
    (hsim : sim s u) (hruns : Runs step s l s') : ∃ u', Runs step u l u' ∧ sim s' u' := by
  induction hruns generalizing u with
  | nil => exact ⟨u, .nil, hsim⟩
  | cons hstep _ ih =>
      obtain ⟨u₁, hu₁, hsim₁⟩ := h.step_same hs hu hsim (h.same_refl _) hstep
      obtain ⟨u', hu', hsim'⟩ := ih (h.inv_step hs hstep) (h.inv_step hu hu₁) hsim₁
      exact ⟨u', .cons hu₁ hu', hsim'⟩

/-- A run can be repeated on a rearranged list, from a state that is as good. -/
theorem runs (h : Oblivious step inv sim same passes) (hl : Shuffled same passes l l') :
    ∀ {s s' u : σ}, inv s l → inv u l' → sim s u → Runs step s l s' →
      ∃ u', Runs step u l' u' ∧ sim s' u' := by
  induction hl with
  | nil =>
      intro s s' u _ _ hsim hruns
      cases hruns
      exact ⟨u, .nil, hsim⟩
  | cons hab _ ih =>
      intro s s' u hs hu hsim hruns
      cases hruns with
      | cons hstep hruns =>
          obtain ⟨u₁, hu₁, hsim₁⟩ := h.step_same hs hu hsim hab hstep
          obtain ⟨u', hu', hsim'⟩ := ih (h.inv_step hs hstep) (h.inv_step hu hu₁) hsim₁ hruns
          exact ⟨u', .cons hu₁ hu', hsim'⟩
  | @swap a b l hp =>
      intro s s' u hs hu hsim hruns
      obtain ⟨s₁, s₂, hstep₁, hstep₂, hruns⟩ : ∃ s₁ s₂, step s a s₁ ∧ step s₁ b s₂ ∧
          Runs step s₂ l s' := by
        cases hruns with
        | cons h₁ hruns =>
            cases hruns with
            | cons h₂ hruns => exact ⟨_, _, h₁, h₂, hruns⟩
      obtain ⟨v₁, v₂, hv₁, hv₂, hsim₂⟩ := h.step_swap hs hp hstep₁ hstep₂
      have hs₂ := h.inv_step (h.inv_step hs hstep₁) hstep₂
      have hv := h.inv_shuffled hs (.swap hp)
      have hl := h.inv_step (h.inv_step hv hv₁) hv₂
      obtain ⟨v', hv', hsim'⟩ := h.runs_of_sim hs₂ hl hsim₂ hruns
      obtain ⟨u', hu', hsim''⟩ := h.runs_of_sim hv hu hsim (.cons hv₁ (.cons hv₂ hv'))
      exact ⟨u', hu', h.sim_trans hsim' hsim''⟩
  | trans hl₁ _ ih₁ ih₂ =>
      intro s s' u hs hu hsim hruns
      have hs₂ := h.inv_shuffled hs hl₁
      obtain ⟨v', hv', hsim'⟩ := ih₁ hs hs₂ (h.sim_refl s) hruns
      obtain ⟨u', hu', hsim''⟩ := ih₂ hs₂ hu hsim hv'
      exact ⟨u', hu', h.sim_trans hsim' hsim''⟩

end Oblivious

end Coherence
