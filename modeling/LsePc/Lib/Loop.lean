/-
  File:      LsePc/Lib/Loop.lean
  Subject:   Loops that may fail and that may never be left.

  A loop is what one round of it does. This file names nothing of any particular program.

  * `Round`: a round goes on, leaves the loop or accesses what it must not;
  * `runLoop round n s`: at most `n` rounds from `s`; `running` says they were too few;
  * `Returns`: with rounds enough the program ends with this result;
  * `loop_mono`: more rounds change no result; `loop_invariant`: what every round keeps holds
    where the loop ends. So a loop may never be left (`loop_never`, `loop_goes_on`), or be safe
    (`loop_safe`).
-/
import Mathlib.Logic.Basic

namespace LsePc.Lib

variable {σ α β : Type}

/-- What a program that may fail or never end has come to. -/
inductive Outcome (α : Type) where
  | running
  | fault
  | done (a : α)
  deriving DecidableEq, Repr

def Outcome.bind : Outcome α → (α → Outcome β) → Outcome β
  | running, _ => running
  | fault, _ => fault
  | done a, k => k a

instance : Monad Outcome where
  pure := Outcome.done
  bind := Outcome.bind

/-- What follows a program that has ended. -/
theorem Outcome.bind_done {m : Outcome α} {a : α} (h : m = .done a) (k : α → Outcome β) :
    (m >>= k) = k a := by
  rw [h]
  rfl

/-- Parts that are safe make a safe program. -/
theorem Outcome.bind_safe {m : Outcome α} {k : α → Outcome β} (hm : m ≠ .fault)
    (hk : ∀ a, k a ≠ .fault) : (m >>= k) ≠ .fault := by
  cases m with
  | running => exact nofun
  | fault => exact absurd rfl hm
  | done a => exact hk a

/-- A program ends only if its first part does. -/
theorem Outcome.of_bind_done {m : Outcome α} {k : α → Outcome β} {b : β}
    (h : (m >>= k) = .done b) : ∃ a, m = .done a ∧ k a = .done b := by
  cases m with
  | running => nomatch h
  | fault => nomatch h
  | done a => exact ⟨a, rfl, h⟩

/-- With rounds enough the program ends with `a`. -/
def Returns (program : Nat → Outcome α) (a : α) : Prop := ∃ rounds, program rounds = .done a

/-- What one round of a loop does. -/
inductive Round (σ α : Type) where
  | next (s : σ)
  | leave (a : α)
  | fault

/-- At most `n` rounds of the loop. -/
def runLoop (round : σ → Round σ α) : Nat → σ → Outcome α
  | 0, _ => .running
  | n + 1, s =>
    match round s with
    | .next s => runLoop round n s
    | .leave a => .done a
    | .fault => .fault

variable {round : σ → Round σ α} {s s' : σ} {a : α}

theorem loop_next (h : round s = .next s') (n : Nat) :
    runLoop round (n + 1) s = runLoop round n s' := by
  rw [runLoop, h]

theorem loop_leave (h : round s = .leave a) (n : Nat) : runLoop round (n + 1) s = .done a := by
  rw [runLoop, h]

theorem loop_mono {n m : Nat} (h : runLoop round n s = .done a) (hm : n ≤ m) :
    runLoop round m s = .done a := by
  induction n generalizing s m with
  | zero => nomatch h
  | succ n ih =>
    obtain ⟨m, rfl⟩ := Nat.exists_eq_add_of_le' (Nat.le_trans (Nat.le_add_left 1 n) hm)
    rw [runLoop] at h ⊢
    cases ht : round s with
    | next s' =>
      rw [ht] at h
      exact ih h (Nat.le_of_succ_le_succ hm)
    | leave b =>
      rw [ht] at h
      exact h
    | fault =>
      rw [ht] at h
      nomatch h

theorem loop_unique {n m : Nat} {b : α} (h : runLoop round n s = .done a)
    (h' : runLoop round m s = .done b) : a = b := by
  have hn := loop_mono h (Nat.le_max_left n m)
  have hm := loop_mono h' (Nat.le_max_right n m)
  exact Outcome.done.inj (hn.symm.trans hm)

/-- **What every round keeps** holds where the loop ends. -/
theorem loop_invariant {P : σ → Prop} (hnext : ∀ s s', P s → round s = .next s' → P s')
    (hs : P s) (n : Nat) : runLoop round n s = .running ∨
      ∃ s', P s' ∧ ((∃ a, round s' = .leave a ∧ runLoop round n s = .done a) ∨
        (round s' = .fault ∧ runLoop round n s = .fault)) := by
  induction n generalizing s with
  | zero => exact .inl rfl
  | succ n ih =>
    rw [runLoop]
    cases ht : round s with
    | next s' => exact ih (hnext s s' hs ht)
    | leave a => exact .inr ⟨s, hs, .inl ⟨a, ht, rfl⟩⟩
    | fault => exact .inr ⟨s, hs, .inr ⟨ht, rfl⟩⟩

/-- A loop that is never left. -/
theorem loop_never {P : σ → Prop} (hleave : ∀ s a, P s → round s ≠ .leave a)
    (hnext : ∀ s s', P s → round s = .next s' → P s') (hs : P s) (n : Nat) (a : α) :
    runLoop round n s ≠ .done a := by
  intro hdone
  rcases loop_invariant hnext hs n with h | ⟨s', hs', ⟨b, hb, -⟩ | ⟨-, h⟩⟩
  · nomatch h.symm.trans hdone
  · exact hleave s' b hs' hb
  · nomatch h.symm.trans hdone

/-- A loop whose every round is followed by another. -/
theorem loop_goes_on {P : σ → Prop} (h : ∀ s, P s → ∃ s', round s = .next s' ∧ P s') (hs : P s)
    (n : Nat) (a : α) : runLoop round n s ≠ .done a := by
  refine loop_never (fun s a hs hr => ?_) (fun s s' hs hr => ?_) hs n a
  · obtain ⟨s', hr', -⟩ := h s hs
    nomatch hr.symm.trans hr'
  · obtain ⟨s'', hr', hs''⟩ := h s hs
    cases hr.symm.trans hr'
    exact hs''

/-- A loop without an access it must not make. -/
theorem loop_safe {P : σ → Prop} (hsafe : ∀ s, P s → round s ≠ .fault)
    (hnext : ∀ s s', P s → round s = .next s' → P s') (hs : P s) (n : Nat) :
    runLoop round n s ≠ .fault := by
  intro hfault
  rcases loop_invariant hnext hs n with h | ⟨s', hs', ⟨b, -, h⟩ | ⟨h, -⟩⟩
  · nomatch h.symm.trans hfault
  · nomatch h.symm.trans hfault
  · exact hsafe s' hs' h

end LsePc.Lib
