/-
  File:      LsePc/Lib/Prog.lean
  Subject:   Programs that issue operations, and programs that implement operations by others.

  A program is a tree: an operation, and what follows each of its answers. A loop is unrolled,
  and a tree may end where its turns are used up, so the runs of a loop are the runs of all
  its trees. This file names nothing of any particular program.

  * `Prog`, `Prog.bind`, `Prog.handle`: programs, one after the other, and every operation of
    one replaced by a program;
  * `Issues`, `Finishes`: the traces of a program up to some point and up to its end;
  * `Begins`, `Runs`: the same on a machine that answers, with one rule for each way to put
    programs together;
  * `Implements`: programs over one machine that do what the operations of another one do;
  * `Implements.runs`, `Implements.begins`: so a program over the operations, with these put
    in, has only runs it has over the other machine.
-/
import LsePc.Lib.Transition
import Mathlib.Tactic.Common

namespace LsePc.Lib

/-! ## 1. Programs -/

/-- A program over the operations `ι`, which are answered by `ο`; `more` is a loop that has used
    up its turns. -/
inductive Prog (ι : Type) (ο : ι → Type) (α : Type) where
  | ret (a : α)
  | op (i : ι) (k : ο i → Prog ι ο α)
  | more

/-- An operation and its answer. -/
abbrev Event (ι : Type) (ο : ι → Type) := (i : ι) × ο i

section
variable {ι κ : Type} {ο : ι → Type} {π : κ → Type} {α β : Type}

namespace Prog

def bind : Prog ι ο α → (α → Prog ι ο β) → Prog ι ο β
  | ret a, f => f a
  | op i k, f => op i fun o => (k o).bind f
  | more, _ => more

instance : Monad (Prog ι ο) where
  pure := ret
  bind := bind

@[simp] theorem pure_eq (a : α) : (pure a : Prog ι ο α) = ret a := rfl
@[simp] theorem bind_eq (p : Prog ι ο α) (f : α → Prog ι ο β) : p >>= f = p.bind f := rfl

/-- One operation. -/
def perform (i : ι) : Prog ι ο (ο i) := op i ret

/-- Every operation `i` is replaced by the program `h i`. -/
def handle (h : (i : ι) → Prog κ π (ο i)) : Prog ι ο α → Prog κ π α
  | ret a => ret a
  | op i k => (h i).bind fun o => (k o).handle h
  | more => more

/-- The program `body`, once the program `cond` answers yes; it is asked `n` times. -/
def await (cond : Prog ι ο Bool) (body : Prog ι ο α) : Nat → Prog ι ο α
  | 0 => more
  | n + 1 => cond.bind fun b => if b then body else await cond body n

/-- The program `f` for each item of a list. -/
def each (f : β → Prog ι ο Unit) : List β → Prog ι ο Unit
  | [] => ret ()
  | b :: l => (f b).bind fun _ => each f l

end Prog

/-! ## 2. Traces -/

/-- The program may have issued the operations of the trace, with these answers. -/
inductive Issues : Prog ι ο α → List (Event ι ο) → Prop where
  | here (p : Prog ι ο α) : Issues p []
  | op {i : ι} {k : ο i → Prog ι ο α} {o : ο i} {tr : List (Event ι ο)} (h : Issues (k o) tr) :
      Issues (.op i k) (⟨i, o⟩ :: tr)

/-- With these it is at its end, and returns `a`. -/
inductive Finishes : Prog ι ο α → List (Event ι ο) → α → Prop where
  | ret (a : α) : Finishes (.ret a) [] a
  | op {i : ι} {k : ο i → Prog ι ο α} {o : ο i} {tr : List (Event ι ο)} {a : α}
      (h : Finishes (k o) tr a) : Finishes (.op i k) (⟨i, o⟩ :: tr) a

variable {p : Prog ι ο α} {f : α → Prog ι ο β} {tr : List (Event ι ο)} {a : α} {b : β}

theorem Finishes.issues (h : Finishes p tr a) : Issues p tr := by
  induction h with
  | ret a => exact .here _
  | op _ ih => exact .op ih

@[simp] theorem finishes_ret {a' : α} :
    Finishes (.ret a : Prog ι ο α) tr a' ↔ tr = [] ∧ a' = a := by
  constructor
  · intro h
    cases h
    exact ⟨rfl, rfl⟩
  · rintro ⟨rfl, rfl⟩
    exact .ret a'

@[simp] theorem not_finishes_more : ¬ Finishes (.more : Prog ι ο α) tr a := nofun

@[simp] theorem finishes_op {i : ι} {k : ο i → Prog ι ο α} :
    Finishes (.op i k) tr a ↔ ∃ o tr', tr = ⟨i, o⟩ :: tr' ∧ Finishes (k o) tr' a := by
  constructor
  · intro h
    cases h with
    | op h => exact ⟨_, _, rfl, h⟩
  · rintro ⟨o, tr', rfl, h⟩
    exact .op h

@[simp] theorem issues_ret : Issues (.ret a : Prog ι ο α) tr ↔ tr = [] := by
  constructor
  · intro h
    cases h
    rfl
  · rintro rfl
    exact .here _

@[simp] theorem issues_more : Issues (.more : Prog ι ο α) tr ↔ tr = [] := by
  constructor
  · intro h
    cases h
    rfl
  · rintro rfl
    exact .here _

@[simp] theorem issues_op {i : ι} {k : ο i → Prog ι ο α} :
    Issues (.op i k) tr ↔ tr = [] ∨ ∃ o tr', tr = ⟨i, o⟩ :: tr' ∧ Issues (k o) tr' := by
  constructor
  · intro h
    cases h with
    | here => exact .inl rfl
    | op h => exact .inr ⟨_, _, rfl, h⟩
  · rintro (rfl | ⟨o, tr', rfl, h⟩)
    · exact .here _
    · exact .op h

/-- **The end of a composition**: the first program is at its end, and from its result the
    second one is. -/
theorem finishes_bind : Finishes (p.bind f) tr b ↔
    ∃ tr₁ tr₂ a, tr = tr₁ ++ tr₂ ∧ Finishes p tr₁ a ∧ Finishes (f a) tr₂ b := by
  constructor
  · intro h
    induction p generalizing tr with
    | ret a => exact ⟨[], tr, a, rfl, .ret a, h⟩
    | more => exact absurd h not_finishes_more
    | op i k ih =>
      obtain ⟨o, tr', rfl, hk⟩ := finishes_op.mp h
      obtain ⟨tr₁, tr₂, a, rfl, h₁, h₂⟩ := ih o hk
      exact ⟨_ :: tr₁, tr₂, a, rfl, .op h₁, h₂⟩
  · rintro ⟨tr₁, tr₂, a, rfl, h₁, h₂⟩
    induction h₁ with
    | ret a => exact h₂
    | op _ ih => exact .op (ih h₂)

/-- A composition under way: the first program is, or the second one from its result. -/
theorem issues_bind : Issues (p.bind f) tr ↔ Issues p tr ∨
    ∃ tr₁ tr₂ a, tr = tr₁ ++ tr₂ ∧ Finishes p tr₁ a ∧ Issues (f a) tr₂ := by
  constructor
  · intro h
    induction p generalizing tr with
    | ret a => exact .inr ⟨[], tr, a, rfl, .ret a, h⟩
    | more =>
      obtain rfl := issues_more.mp h
      exact .inl (.here _)
    | op i k ih =>
      rcases issues_op.mp h with rfl | ⟨o, tr', rfl, hk⟩
      · exact .inl (.here _)
      · rcases ih o hk with h₁ | ⟨tr₁, tr₂, a, rfl, h₁, h₂⟩
        · exact .inl (.op h₁)
        · exact .inr ⟨_ :: tr₁, tr₂, a, rfl, .op h₁, h₂⟩
  · rintro (h | ⟨tr₁, tr₂, a, rfl, h₁, h₂⟩)
    · induction h with
      | here p => exact .here _
      | op _ ih => exact .op ih
    · induction h₁ with
      | ret a => exact h₂
      | op _ ih => exact .op (ih h₂)

end

/-! ## 3. Runs on a machine -/

section
variable {σ ι : Type} {ο : ι → Type} {α β : Type} (step : σ → Event ι ο → σ → Prop)

/-- From `s` the program returns `a` in `s'`. -/
def Runs (p : Prog ι ο α) (s : σ) (a : α) (s' : σ) : Prop :=
  ∃ tr, Finishes p tr a ∧ Path step s tr s'

/-- From `s` the program has come to `s'`. -/
def Begins (p : Prog ι ο α) (s s' : σ) : Prop := ∃ tr, Issues p tr ∧ Path step s tr s'

variable {step} {p : Prog ι ο α} {f : α → Prog ι ο β} {cond : Prog ι ο Bool} {P Q : σ → Prop}
  {s s' : σ} {a : α} {b : β} {n : Nat}

theorem Runs.begins (h : Runs step p s a s') : Begins step p s s' := by
  obtain ⟨tr, hends, hrun⟩ := h
  exact ⟨tr, hends.issues, hrun⟩

@[simp] theorem path_nil {s s' : σ} : Path step s [] s' ↔ s' = s := by
  constructor
  · intro h
    cases h
    rfl
  · rintro rfl
    exact .nil s'

@[simp] theorem path_cons {s s' : σ} {e : Event ι ο} {tr : List (Event ι ο)} :
    Path step s (e :: tr) s' ↔ ∃ u, step s e u ∧ Path step u tr s' := by
  constructor
  · intro h
    cases h with
    | cons hs h => exact ⟨_, hs, h⟩
  · rintro ⟨u, hs, h⟩
    exact .cons hs h

@[simp] theorem runs_ret {a' : α} : Runs step (.ret a) s a' s' ↔ a' = a ∧ s' = s := by
  simp [Runs, and_comm]

@[simp] theorem not_runs_more : ¬ Runs step (.more : Prog ι ο α) s a s' := by
  simp [Runs]

@[simp] theorem runs_op {i : ι} {k : ο i → Prog ι ο α} : Runs step (.op i k) s a s' ↔
    ∃ o u, step s ⟨i, o⟩ u ∧ Runs step (k o) u a s' := by
  constructor
  · rintro ⟨tr, hends, hrun⟩
    obtain ⟨o, tr', rfl, h⟩ := finishes_op.mp hends
    obtain ⟨u, hs, hrun⟩ := path_cons.mp hrun
    exact ⟨o, u, hs, tr', h, hrun⟩
  · rintro ⟨o, u, hs, tr, hends, hrun⟩
    exact ⟨_, .op hends, .cons hs hrun⟩

@[simp] theorem runs_perform {i : ι} {o : ο i} :
    Runs step (.perform i) s o s' ↔ step s ⟨i, o⟩ s' := by
  simp only [Prog.perform, runs_op, runs_ret]
  constructor
  · rintro ⟨o', u, hs, rfl, rfl⟩
    exact hs
  · intro hs
    exact ⟨o, s', hs, rfl, rfl⟩

/-- **One program after the other.** -/
@[simp] theorem runs_bind : Runs step (p.bind f) s b s' ↔
    ∃ a u, Runs step p s a u ∧ Runs step (f a) u b s' := by
  constructor
  · rintro ⟨tr, hends, hrun⟩
    obtain ⟨tr₁, tr₂, a, rfl, h₁, h₂⟩ := finishes_bind.mp hends
    obtain ⟨u, hrun₁, hrun₂⟩ := hrun.split
    exact ⟨a, u, ⟨tr₁, h₁, hrun₁⟩, tr₂, h₂, hrun₂⟩
  · rintro ⟨a, u, ⟨tr₁, h₁, hrun₁⟩, tr₂, h₂, hrun₂⟩
    exact ⟨_, finishes_bind.mpr ⟨tr₁, tr₂, a, rfl, h₁, h₂⟩, hrun₁.append hrun₂⟩

@[simp] theorem begins_ret : Begins step (.ret a) s s' ↔ s' = s := by
  simp [Begins]

@[simp] theorem begins_more : Begins step (.more : Prog ι ο α) s s' ↔ s' = s := by
  simp [Begins]

theorem Begins.refl (p : Prog ι ο α) (s : σ) : Begins step p s s := ⟨[], .here p, .nil s⟩

@[simp] theorem begins_op {i : ι} {k : ο i → Prog ι ο α} : Begins step (.op i k) s s' ↔
    s' = s ∨ ∃ o u, step s ⟨i, o⟩ u ∧ Begins step (k o) u s' := by
  constructor
  · rintro ⟨tr, hissues, hrun⟩
    rcases issues_op.mp hissues with rfl | ⟨o, tr', rfl, h⟩
    · exact .inl (path_nil.mp hrun)
    · obtain ⟨u, hs, hrun⟩ := path_cons.mp hrun
      exact .inr ⟨o, u, hs, tr', h, hrun⟩
  · rintro (rfl | ⟨o, u, hs, tr, hissues, hrun⟩)
    · exact .refl _ _
    · exact ⟨_, .op hissues, .cons hs hrun⟩

@[simp] theorem begins_perform {i : ι} : Begins step (.perform i : Prog ι ο (ο i)) s s' ↔
    s' = s ∨ ∃ o, step s ⟨i, o⟩ s' := by
  simp only [Prog.perform, begins_op, begins_ret]
  refine or_congr_right ⟨?_, ?_⟩
  · rintro ⟨o, u, hs, rfl⟩
    exact ⟨o, hs⟩
  · rintro ⟨o, hs⟩
    exact ⟨o, s', hs, rfl⟩

@[simp] theorem begins_bind : Begins step (p.bind f) s s' ↔
    Begins step p s s' ∨ ∃ a u, Runs step p s a u ∧ Begins step (f a) u s' := by
  constructor
  · rintro ⟨tr, hissues, hrun⟩
    rcases issues_bind.mp hissues with h | ⟨tr₁, tr₂, a, rfl, h₁, h₂⟩
    · exact .inl ⟨tr, h, hrun⟩
    · obtain ⟨u, hrun₁, hrun₂⟩ := hrun.split
      exact .inr ⟨a, u, ⟨tr₁, h₁, hrun₁⟩, tr₂, h₂, hrun₂⟩
  · rintro (⟨tr, h, hrun⟩ | ⟨a, u, ⟨tr₁, h₁, hrun₁⟩, tr₂, h₂, hrun₂⟩)
    · exact ⟨tr, issues_bind.mpr (.inl h), hrun⟩
    · exact ⟨_, issues_bind.mpr (.inr ⟨tr₁, tr₂, a, rfl, h₁, h₂⟩), hrun₁.append hrun₂⟩

/-- **A program that waits** was ready before its body. -/
theorem runs_await (hcond : ∀ {s b s'}, P s → Runs step cond s b s' → P s' ∧ (b = true → Q s'))
    (hs : P s) (h : Runs step (cond.await p n) s a s') : ∃ u, Q u ∧ Runs step p u a s' := by
  induction n generalizing s with
  | zero => exact absurd h not_runs_more
  | succ n ih =>
    obtain ⟨b, u, h₁, h₂⟩ := runs_bind.mp h
    obtain ⟨hu, hq⟩ := hcond hs h₁
    cases b with
    | true => exact ⟨u, hq rfl, h₂⟩
    | false => exact ih hu h₂

/-- Under way it asks, or it is in its body. -/
theorem begins_await (hcond : ∀ {s b s'}, P s → Runs step cond s b s' → P s' ∧ (b = true → Q s'))
    (hs : P s) (h : Begins step (cond.await p n) s s') :
    (∃ u, P u ∧ Begins step cond u s') ∨ ∃ u, Q u ∧ Begins step p u s' := by
  induction n generalizing s with
  | zero =>
    obtain rfl := begins_more.mp h
    exact .inl ⟨s', hs, .refl _ _⟩
  | succ n ih =>
    rcases begins_bind.mp h with h₁ | ⟨b, u, h₁, h₂⟩
    · exact .inl ⟨s, hs, h₁⟩
    · obtain ⟨hu, hq⟩ := hcond hs h₁
      cases b with
      | true => exact .inr ⟨u, hq rfl, h₂⟩
      | false => exact ih hu h₂

end

/-! ## 4. Implementations -/

section
variable {σ τ ι κ : Type} {ο : ι → Type} {π : κ → Type} {α : Type}

/-- **The programs `h` do on one machine what the operations do on the other**, between states
    that `R` relates. Before its end a program has done its operation, or something `quiet`. -/
structure Implements (low : σ → Event κ π → σ → Prop) (high : τ → Event ι ο → τ → Prop)
    (quiet : τ → τ → Prop) (R : σ → τ → Prop) (h : (i : ι) → Prog κ π (ο i)) : Prop where
  ends : ∀ {s t s'} {i : ι} {o : ο i}, R s t → Runs low (h i) s o s' →
    ∃ t', high t ⟨i, o⟩ t' ∧ R s' t'
  issues : ∀ {s t s'} {i : ι}, R s t → Begins low (h i) s s' →
    ∃ t', (quiet t t' ∨ ∃ o, high t ⟨i, o⟩ t') ∧ R s' t'

variable {low : σ → Event κ π → σ → Prop} {high : τ → Event ι ο → τ → Prop}
  {quiet : τ → τ → Prop} {R : σ → τ → Prop} {h : (i : ι) → Prog κ π (ο i)}
  {p : Prog ι ο α} {s s' : σ} {t : τ} {a : α}

/-- **A whole run** of a program with the implementations put in is a run over the operations. -/
theorem Implements.runs (hi : Implements low high quiet R h) (hR : R s t)
    (hp : Runs low (p.handle h) s a s') : ∃ t', Runs high p t a t' ∧ R s' t' := by
  induction p generalizing s t with
  | ret b =>
    obtain ⟨rfl, rfl⟩ := runs_ret.mp hp
    exact ⟨t, runs_ret.mpr ⟨rfl, rfl⟩, hR⟩
  | more => exact absurd hp not_runs_more
  | op i k ih =>
    obtain ⟨o, u, h₁, h₂⟩ := runs_bind.mp hp
    obtain ⟨t₁, hstep, hR₁⟩ := hi.ends hR h₁
    obtain ⟨t', hruns, hR'⟩ := ih o hR₁ h₂
    exact ⟨t', runs_op.mpr ⟨o, t₁, hstep, hruns⟩, hR'⟩

/-- **A run up to any point** is a run over the operations, and something quiet. -/
theorem Implements.begins (hi : Implements low high quiet R h) (hq : ∀ t, quiet t t) (hR : R s t)
    (hp : Begins low (p.handle h) s s') :
    ∃ t₁ t', Begins high p t t₁ ∧ quiet t₁ t' ∧ R s' t' := by
  induction p generalizing s t with
  | ret b =>
    obtain rfl := begins_ret.mp hp
    exact ⟨t, t, .refl _ _, hq t, hR⟩
  | more =>
    obtain rfl := begins_more.mp hp
    exact ⟨t, t, .refl _ _, hq t, hR⟩
  | op i k ih =>
    rcases begins_bind.mp hp with h₁ | ⟨o, u, h₁, h₂⟩
    · obtain ⟨t', hquiet | ⟨o, hstep⟩, hR'⟩ := hi.issues hR h₁
      · exact ⟨t, t', .refl _ _, hquiet, hR'⟩
      · exact ⟨t', t', begins_op.mpr (.inr ⟨o, t', hstep, .refl _ _⟩), hq t', hR'⟩
    · obtain ⟨t₁, hstep, hR₁⟩ := hi.ends hR h₁
      obtain ⟨t₂, t', hbegins, hquiet, hR'⟩ := ih o hR₁ h₂
      exact ⟨t₂, t', begins_op.mpr (.inr ⟨o, t₁, hstep, hbegins⟩), hquiet, hR'⟩

end

end LsePc.Lib
