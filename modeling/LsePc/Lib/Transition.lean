/-
  File:      LsePc/Lib/Transition.lean
  Subject:   Transition systems: runs, invariants, monitors.

  A system is an initial condition and a relation `step s i t` with a label `i` (an action
  of an environment, a message, a command). This file names nothing of any particular
  system.

  * `Reach`: the states of all runs; `Reach.invariant`: what one step preserves holds in
    every state of every run;
  * `Path`: a run with the labels of its steps;
  * `Guarded`: the runs whose every step meets a condition on its label and the state it
    is taken in; `Reach.of_guarded`: they are runs;
  * `Reach.simulate`: a simulation carries runs of one system to runs of another;
  * `Seen`, `Path.simulate`: the same for traces, where only some of the labels are seen.
-/
import Mathlib.Logic.Basic

namespace LsePc.Lib

variable {σ τ ι κ : Type}

/-- The states the system reaches. -/
inductive Reach (init : σ → Prop) (step : σ → ι → σ → Prop) : σ → Prop where
  | init {s : σ} (h : init s) : Reach init step s
  | step {s t : σ} {i : ι} (h : Reach init step s) (hs : step s i t) : Reach init step t

variable {init : σ → Prop} {step : σ → ι → σ → Prop}

/-- **An invariant of the steps holds in every state reached.** -/
theorem Reach.invariant {I : σ → Prop} (h0 : ∀ s, init s → I s)
    (hstep : ∀ s i t, I s → step s i t → I t) {s : σ} (h : Reach init step s) : I s := by
  induction h with
  | init h => exact h0 _ h
  | step _ hs ih => exact hstep _ _ _ ih hs

/-- A run on the labels `is`. -/
inductive Path (step : σ → ι → σ → Prop) : σ → List ι → σ → Prop where
  | nil (s : σ) : Path step s [] s
  | cons {s t u : σ} {i : ι} {is : List ι} (hs : step s i t) (h : Path step t is u) :
      Path step s (i :: is) u

theorem Path.append {s t u : σ} {is js : List ι} (h : Path step s is t) (h' : Path step t js u) :
    Path step s (is ++ js) u := by
  induction h with
  | nil => exact h'
  | cons hi _ ih => exact .cons hi (ih h')

theorem Path.split {s u : σ} {is js : List ι} (h : Path step s (is ++ js) u) :
    ∃ t, Path step s is t ∧ Path step t js u := by
  induction is generalizing s with
  | nil => exact ⟨s, .nil s, h⟩
  | cons i is ih =>
    cases h with
    | cons hi h =>
      obtain ⟨t, h₁, h₂⟩ := ih h
      exact ⟨t, .cons hi h₁, h₂⟩

theorem Path.reach {s t : σ} {is : List ι} (h : Path step s is t) (hs : Reach init step s) :
    Reach init step t := by
  induction h with
  | nil => exact hs
  | cons hi _ ih => exact ih (.step hs hi)

/-- The steps that meet the condition `ok`. -/
def Guarded (step : σ → ι → σ → Prop) (ok : σ → ι → Prop) (s : σ) (i : ι) (t : σ) : Prop :=
  step s i t ∧ ok s i

theorem Path.of_guarded {ok : σ → ι → Prop} {s t : σ} {is : List ι}
    (h : Path (Guarded step ok) s is t) : Path step s is t := by
  induction h with
  | nil => exact .nil _
  | cons hi _ ih => exact .cons hi.1 ih

theorem Reach.of_guarded {ok : σ → ι → Prop} {s : σ} (h : Reach init (Guarded step ok) s) :
    Reach init step s := by
  induction h with
  | init h => exact .init h
  | step _ hs ih => exact .step ih hs.1

/-- **A simulation**: where every step of the first system is matched by a step of the second,
    or by none, every state reached is related to a state reached. -/
theorem Reach.simulate {init' : τ → Prop} {step' : τ → κ → τ → Prop} {R : σ → τ → Prop}
    (h0 : ∀ s, init s → ∃ t, init' t ∧ R s t)
    (hstep : ∀ s i s' t, R s t → step s i s' → R s' t ∨ ∃ k t', step' t k t' ∧ R s' t')
    {s : σ} (h : Reach init step s) : ∃ t, Reach init' step' t ∧ R s t := by
  induction h with
  | init h =>
    obtain ⟨t, ht, hr⟩ := h0 _ h
    exact ⟨t, .init ht, hr⟩
  | step _ hs ih =>
    obtain ⟨t, ht, hr⟩ := ih
    rcases hstep _ _ _ _ hr hs with hr' | ⟨k, t', hk, hr'⟩
    · exact ⟨t, ht, hr'⟩
    · exact ⟨t', .step ht hk, hr'⟩

/-- No step for an action that is not seen. -/
def Seen (step : τ → κ → τ → Prop) (t : τ) : Option κ → τ → Prop
  | none, t' => t' = t
  | some k, t' => step t k t'

/-- **A simulation** of the actions that are seen: a trace, without the others, is a trace of the
    second system. -/
theorem Path.simulate {step : σ → Option κ → σ → Prop} {step' : τ → κ → τ → Prop}
    {R : σ → τ → Prop} (hstep : ∀ {s t e s'}, R s t → step s e s' →
      ∃ t', Seen step' t e t' ∧ R s' t') {s s' : σ} {t : τ} {es : List (Option κ)}
    (h : Path step s es s') (hR : R s t) : ∃ t', Path step' t (es.filterMap id) t' ∧ R s' t' := by
  induction h generalizing t with
  | nil => exact ⟨t, .nil t, hR⟩
  | @cons _ _ _ e _ hs _ ih =>
    obtain ⟨t₁, hk, hR₁⟩ := hstep hR hs
    obtain ⟨t', hpath, hR'⟩ := ih hR₁
    cases e with
    | none =>
      have hsame : t₁ = t := hk
      exact ⟨t', hsame ▸ hpath, hR'⟩
    | some k => exact ⟨t', .cons hk hpath, hR'⟩

end LsePc.Lib
