/-
  File:      LsePc/Lib/Clock.lean
  Subject:   Synchronous machines driven by an input trace.

  A clocked unit is a function `step : σ → ι → σ` (one rising edge with the
  inputs of that clock). This file fixes what a run of it is and the facts a
  cycle-level proof needs; it names nothing of any particular unit.

  * `clocks`: the state after `n` edges of a trace;
  * `clocks_add`: a run of `m + n` edges is a run of `n` edges after one of
    `m`, on the trace that starts at `m`;
  * `sampled`: the inputs of the clocks in which the unit is in a state of
    interest, in order: what a unit that looks at its pins only in some
    states has seen of the trace.
-/
import Mathlib.Data.List.Basic
import Mathlib.Data.Nat.Find

namespace LsePc.Lib

variable {σ ι : Type}

/-- The state after `n` rising edges, edge `k` seeing the inputs `inp k`. -/
def clocks (step : σ → ι → σ) (s : σ) (inp : Nat → ι) : Nat → σ
  | 0 => s
  | n + 1 => step (clocks step s inp n) (inp n)

@[simp] theorem clocks_zero (step : σ → ι → σ) (s : σ) (inp : Nat → ι) :
    clocks step s inp 0 = s := rfl

theorem clocks_succ (step : σ → ι → σ) (s : σ) (inp : Nat → ι) (n : Nat) :
    clocks step s inp (n + 1) = step (clocks step s inp n) (inp n) := rfl

/-- A run split at clock `m`. -/
theorem clocks_add (step : σ → ι → σ) (s : σ) (inp : Nat → ι) (m n : Nat) :
    clocks step s inp (m + n) =
      clocks step (clocks step s inp m) (fun k => inp (m + k)) n := by
  induction n with
  | zero => rfl
  | succ n ih => rw [← Nat.add_assoc, clocks_succ, clocks_succ, ih]

/-- The inputs of the first `n` clocks in which the unit was in a state with `p`. -/
def sampled (step : σ → ι → σ) (p : σ → Bool) (s : σ) (inp : Nat → ι) (n : Nat) : List ι :=
  ((List.range n).filter fun k => p (clocks step s inp k)).map inp

theorem sampled_succ (step : σ → ι → σ) (p : σ → Bool) (s : σ) (inp : Nat → ι) (n : Nat) :
    sampled step p s inp (n + 1) =
      sampled step p s inp n ++ (if p (clocks step s inp n) then [inp n] else []) := by
  unfold sampled
  rw [List.range_succ, List.filter_append, List.map_append]
  congr 1
  cases h : p (clocks step s inp n) <;> simp [h]

/-- A condition that ends holds up to a first clock in which it does not. -/
theorem exists_first {p : Nat → Bool} (h : ∃ k, p k = false) :
    ∃ k, (∀ j < k, p j = true) ∧ p k = false :=
  ⟨Nat.find h, fun _ hj => by simpa using Nat.find_min h hj, Nat.find_spec h⟩

end LsePc.Lib
