/-
  File:      LsePc/Lib/Pass.lean
  Subject:   Translators that go over a list of items more than once, with a
             state and possible failure.

  * `annotate f s l`: a pass that threads a state and returns the items it has
    annotated;
  * `Along f P s l`: a property of every item and the state the pass meets it in;
  * `annotate_induct`, `annotate_history`: the rules for one pass, over the items
    to come and over those that came before;
  * `annotate_rel`: two runs of a pass over related items;
  * `foldlM_induct`, `two_pass`: a second pass (`List.foldlM`) over what the first
    one returned, alone and side by side with it.
-/
import Mathlib.Data.List.Forall2
import Mathlib.Tactic.Common

namespace LsePc.Lib

section
variable {σ τ α β ε : Type}

theorem bind_ok {x : Except ε α} {f : α → Except ε β} {b : β} :
    x >>= f = .ok b ↔ ∃ a, x = .ok a ∧ f a = .ok b := by
  constructor
  · intro h
    cases x with
    | error e => cases h
    | ok a => exact ⟨a, rfl, h⟩
  · intro h
    obtain ⟨a, rfl, h⟩ := h
    exact h

/-! ## 1. A pass -/

/-- A pass over a list: the state goes from item to item, the annotated items are returned. -/
def annotate (f : σ → α → Except ε (σ × β)) : σ → List α → Except ε (σ × List β)
  | s, [] => .ok (s, [])
  | s, a :: l => do
    let (s, b) ← f s a
    let (s, bs) ← annotate f s l
    return (s, b :: bs)

variable {f : σ → α → Except ε (σ × β)}

theorem annotate_nil {s s' : σ} {bs : List β} :
    annotate f s [] = .ok (s', bs) ↔ s' = s ∧ bs = [] := by
  simp [annotate, eq_comm]

theorem annotate_cons {s s' : σ} {a : α} {l : List α} {bs : List β} :
    annotate f s (a :: l) = .ok (s', bs) ↔
      ∃ s₁ b bs₁, f s a = .ok (s₁, b) ∧ annotate f s₁ l = .ok (s', bs₁) ∧ bs = b :: bs₁ := by
  simp only [annotate, bind_ok, Prod.exists]
  constructor
  · intro h
    obtain ⟨s₁, b, hf, s₂, bs₁, hl, h⟩ := h
    cases h
    exact ⟨s₁, b, bs₁, hf, hl, rfl⟩
  · intro h
    obtain ⟨s₁, b, bs₁, hf, hl, rfl⟩ := h
    exact ⟨s₁, b, hf, s', bs₁, hl, rfl⟩

theorem annotate_append {s s' : σ} {l₁ l₂ : List α} {bs : List β} :
    annotate f s (l₁ ++ l₂) = .ok (s', bs) ↔
      ∃ s₁ bs₁ bs₂, annotate f s l₁ = .ok (s₁, bs₁) ∧ annotate f s₁ l₂ = .ok (s', bs₂) ∧
        bs = bs₁ ++ bs₂ := by
  induction l₁ generalizing s bs with
  | nil =>
    constructor
    · intro h
      exact ⟨s, [], bs, rfl, h, rfl⟩
    · intro h
      obtain ⟨s₁, bs₁, bs₂, h, h', rfl⟩ := h
      obtain ⟨rfl, rfl⟩ := annotate_nil.mp h
      exact h'
  | cons a l₁ ih =>
    rw [List.cons_append, annotate_cons]
    constructor
    · intro h
      obtain ⟨s₁, b, bs₁, hf, hl, rfl⟩ := h
      obtain ⟨s₂, bs₂, bs₃, h₁, h₂, rfl⟩ := ih.mp hl
      exact ⟨s₂, b :: bs₂, bs₃, annotate_cons.mpr ⟨s₁, b, bs₂, hf, h₁, rfl⟩, h₂, rfl⟩
    · intro h
      obtain ⟨s₂, bs₁, bs₂, h₁, h₂, rfl⟩ := h
      obtain ⟨s₁, b, bs₃, hf, hl, rfl⟩ := annotate_cons.mp h₁
      exact ⟨s₁, b, bs₃ ++ bs₂, hf, ih.mpr ⟨s₂, bs₃, bs₂, hl, h₂, rfl⟩, rfl⟩

/-- The pass at one item: what comes before, the item, what comes after. -/
theorem annotate_split {s s' : σ} {pre post : List α} {a : α} {bs : List β}
    (h : annotate f s (pre ++ a :: post) = .ok (s', bs)) :
    ∃ s₁ s₂ b bs₁ bs₂, annotate f s pre = .ok (s₁, bs₁) ∧ f s₁ a = .ok (s₂, b) ∧
      annotate f s₂ post = .ok (s', bs₂) ∧ bs = bs₁ ++ b :: bs₂ := by
  obtain ⟨s₁, bs₁, bs₂, h₁, h₂, rfl⟩ := annotate_append.mp h
  obtain ⟨s₂, b, bs₃, hf, hl, rfl⟩ := annotate_cons.mp h₂
  exact ⟨s₁, s₂, b, bs₁, bs₃, h₁, hf, hl, rfl⟩

/-- A property of every item and the state the pass meets it in. -/
def Along (f : σ → α → Except ε (σ × β)) (P : σ → α → Prop) : σ → List α → Prop
  | _, [] => True
  | s, a :: l => P s a ∧ ∀ x, f s a = .ok x → Along f P x.1 l

theorem Along.of_append {P : σ → α → Prop} {s s' : σ} {l₁ l₂ : List α} {bs : List β}
    (h : Along f P s (l₁ ++ l₂)) (h₁ : annotate f s l₁ = .ok (s', bs)) : Along f P s' l₂ := by
  induction l₁ generalizing s bs with
  | nil =>
    obtain ⟨rfl, rfl⟩ := annotate_nil.mp h₁
    exact h
  | cons a l₁ ih =>
    obtain ⟨s₁, b, bs₁, hf, hl, rfl⟩ := annotate_cons.mp h₁
    exact ih (h.2 _ hf) hl

theorem Along.take {P : σ → α → Prop} {s : σ} {l₁ l₂ : List α} (h : Along f P s (l₁ ++ l₂)) :
    Along f P s l₁ := by
  induction l₁ generalizing s with
  | nil => trivial
  | cons a l₁ ih => exact ⟨h.1, fun x hx => ih (h.2 x hx)⟩

/-! ## 2. Rules -/

/-- What one item preserves, a pass preserves. `R` may speak of the items still to come. -/
theorem annotate_induct {R : List α → σ → Prop}
    (step : ∀ a l s s₁ b, f s a = .ok (s₁, b) → R (a :: l) s → R l s₁) :
    ∀ {l : List α} {s s' : σ} {bs : List β}, annotate f s l = .ok (s', bs) → R l s → R [] s'
  | [], _, _, _, h, hR => by
    obtain ⟨rfl, rfl⟩ := annotate_nil.mp h
    exact hR
  | a :: l, s, s', bs, h, hR => by
    obtain ⟨s₁, b, bs₁, hf, hl, rfl⟩ := annotate_cons.mp h
    exact annotate_induct step hl (step a l s s₁ b hf hR)

/-- The same where `R` speaks of the items that came before. -/
theorem annotate_history {R : List α → σ → Prop} {s₀ : σ} {l : List α}
    (step : ∀ pre a post s s₁ b bs, l = pre ++ a :: post → annotate f s₀ pre = .ok (s, bs) →
      f s a = .ok (s₁, b) → R pre s → R (pre ++ [a]) s₁)
    {s' : σ} {bs : List β} (h : annotate f s₀ l = .ok (s', bs)) (init : R [] s₀) : R l s' := by
  have key : ∀ post pre s bs₁ bs₂, l = pre ++ post → annotate f s₀ pre = .ok (s, bs₁) →
      annotate f s post = .ok (s', bs₂) → R pre s → R l s' := by
    intro post
    induction post with
    | nil =>
      intro pre s bs₁ bs₂ hl _ hp hR
      obtain ⟨rfl, rfl⟩ := annotate_nil.mp hp
      rwa [hl, List.append_nil]
    | cons a post ih =>
      intro pre s bs₁ bs₂ hl h₁ hp hR
      obtain ⟨s₁, b, bs₃, hf, hpost, rfl⟩ := annotate_cons.mp hp
      have h₂ : annotate f s₀ (pre ++ [a]) = .ok (s₁, bs₁ ++ [b]) :=
        annotate_append.mpr ⟨s, bs₁, [b], h₁,
          annotate_cons.mpr ⟨s₁, b, [], hf, rfl, rfl⟩, rfl⟩
      exact ih (pre ++ [a]) s₁ (bs₁ ++ [b]) bs₃ (by rw [hl, List.append_assoc]; rfl) h₂ hpost
        (step pre a post s s₁ b bs₁ hl h₁ hf hR)
  exact key l [] s₀ [] bs rfl rfl h init

/-- **Two runs of a pass** over related items, from related states: what one pair of items
    preserves, the runs preserve, and what they return is related. -/
theorem annotate_rel {R : σ → σ → Prop} {E : α → α → Prop} {E' : β → β → Prop}
    (step : ∀ s t a a' s₁ t₁ b b', R s t → E a a' → f s a = .ok (s₁, b) →
      f t a' = .ok (t₁, b') → R s₁ t₁ ∧ E' b b')
    {l l' : List α} (hl : List.Forall₂ E l l') :
    ∀ {s t s' t' : σ} {bs bs' : List β}, R s t → annotate f s l = .ok (s', bs) →
      annotate f t l' = .ok (t', bs') → R s' t' ∧ List.Forall₂ E' bs bs' := by
  induction hl with
  | nil =>
    intro s t s' t' bs bs' hR h h'
    obtain ⟨rfl, rfl⟩ := annotate_nil.mp h
    obtain ⟨rfl, rfl⟩ := annotate_nil.mp h'
    exact ⟨hR, .nil⟩
  | cons ha _ ih =>
    intro s t s' t' bs bs' hR h h'
    obtain ⟨s₁, b, bs₁, hf, hrest, rfl⟩ := annotate_cons.mp h
    obtain ⟨t₁, b', bs₁', hf', hrest', rfl⟩ := annotate_cons.mp h'
    obtain ⟨hR₁, hb⟩ := step _ _ _ _ _ _ _ _ hR ha hf hf'
    obtain ⟨hR', hbs⟩ := ih hR₁ hrest hrest'
    exact ⟨hR', .cons hb hbs⟩

theorem mapM_ok {h : α → Except ε β} {l : List α} {bs : List β} :
    l.mapM h = .ok bs ↔ List.Forall₂ (fun a b => h a = .ok b) l bs := by
  induction l generalizing bs with
  | nil => simp [pure, Except.pure, eq_comm]
  | cons a l ih =>
    rw [List.mapM_cons, bind_ok, List.forall₂_cons_left_iff]
    constructor
    · intro h
      obtain ⟨b, hb, hl⟩ := h
      obtain ⟨bs₁, hbs, hr⟩ := bind_ok.mp hl
      cases hr
      exact ⟨b, bs₁, hb, ih.mp hbs, rfl⟩
    · intro h
      obtain ⟨b, bs₁, hb, hbs, rfl⟩ := h
      exact ⟨b, hb, bind_ok.mpr ⟨bs₁, ih.mpr hbs, rfl⟩⟩

variable {g : τ → β → Except ε τ}

theorem foldlM_cons_ok {t t' : τ} {b : β} {bs : List β} :
    (b :: bs).foldlM g t = .ok t' ↔ ∃ t₁, g t b = .ok t₁ ∧ bs.foldlM g t₁ = .ok t' := by
  rw [List.foldlM_cons, bind_ok]

theorem foldlM_append_ok {t t' : τ} {bs bs' : List β} :
    (bs ++ bs').foldlM g t = .ok t' ↔
      ∃ t₁, bs.foldlM g t = .ok t₁ ∧ bs'.foldlM g t₁ = .ok t' := by
  rw [List.foldlM_append, bind_ok]

/-- What one item preserves, a second pass preserves. -/
theorem foldlM_induct {R : List β → τ → Prop}
    (step : ∀ b bs t t₁, g t b = .ok t₁ → R (b :: bs) t → R bs t₁) :
    ∀ {bs : List β} {t t' : τ}, bs.foldlM g t = .ok t' → R bs t → R [] t'
  | [], _, _, h, hR => by
    cases h
    exact hR
  | b :: bs, t, t', h, hR => by
    obtain ⟨t₁, hb, h⟩ := foldlM_cons_ok.mp h
    exact foldlM_induct step h (step b bs t t₁ hb hR)

/-- **Two passes side by side.** A relation between the states of the two passes holds at
    the end if each item preserves it, the first pass being known to go through. -/
theorem two_pass {s' : σ} {R : List α → σ → τ → Prop}
    (step : ∀ a l s t s₁ t₁ b bs, f s a = .ok (s₁, b) → annotate f s₁ l = .ok (s', bs) →
      g t b = .ok t₁ → R (a :: l) s t → R l s₁ t₁) :
    ∀ {l : List α} {s : σ} {t t' : τ} {bs : List β}, annotate f s l = .ok (s', bs) →
      bs.foldlM g t = .ok t' → R l s t → R [] s' t'
  | [], _, _, _, _, h, hg, hR => by
    obtain ⟨rfl, rfl⟩ := annotate_nil.mp h
    cases hg
    exact hR
  | a :: l, s, t, t', bs, h, hg, hR => by
    obtain ⟨s₁, b, bs₁, hf, hl, rfl⟩ := annotate_cons.mp h
    obtain ⟨t₁, hb, hg₁⟩ := foldlM_cons_ok.mp hg
    exact two_pass step hl hg₁ (step a l s t s₁ t₁ b bs₁ hf hl hb hR)

end

end LsePc.Lib
