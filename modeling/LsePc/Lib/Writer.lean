/-
  File:      LsePc/Lib/Writer.lean
  Subject:   Programs that write to a device through a state of their own, and may fail.

  Such a program is a `StateT σ Option α`: `none` is a failure (an access out of bounds).
  This file names nothing of any particular program.

  * `Output`: an invariant of the state, and what has been written in a state;
  * `Writes D m l`: from every state that meets the invariant, `m` does not fail, keeps the
    invariant and has written `l` more;
  * one rule for each way to put programs together: `Writes.pure`, `Writes.bind`,
    `Writes.map`, `Writes.list`.
-/
import Mathlib.Data.List.Basic

namespace LsePc.Lib

/-- What the states of a program mean to those who read its output. -/
structure Output (σ β : Type) where
  inv : σ → Prop
  written : σ → List β

section
variable {σ β ι α γ : Type} {D : Output σ β} {l l' : List β}

def Writes (D : Output σ β) (m : StateT σ Option α) (l : List β) : Prop :=
  ∀ s, D.inv s → ∃ a s', m s = some (a, s') ∧ D.inv s' ∧ D.written s' = D.written s ++ l

theorem Writes.pure (a : α) : Writes D (Pure.pure a : StateT σ Option α) [] :=
  fun s hs => ⟨a, s, rfl, hs, (List.append_nil _).symm⟩

/-- A program after one that does not fail. -/
theorem bind_run {m : StateT σ Option α} {k : α → StateT σ Option γ} {s s' : σ} {a : α}
    (h : m s = some (a, s')) : (m >>= k) s = k a s' := by
  change (m s).bind (fun p => k p.1 p.2) = _
  rw [h]
  rfl

theorem Writes.bind {m : StateT σ Option α} {k : α → StateT σ Option γ} (hm : Writes D m l)
    (hk : ∀ a, Writes D (k a) l') : Writes D (m >>= k) (l ++ l') := by
  intro s hs
  obtain ⟨a, s₁, hrun, hs₁, hw₁⟩ := hm s hs
  obtain ⟨b, s₂, hrun', hs₂, hw₂⟩ := hk a s₁ hs₁
  refine ⟨b, s₂, (bind_run hrun).trans hrun', hs₂, ?_⟩
  rw [hw₂, hw₁, List.append_assoc]

theorem Writes.map {m : StateT σ Option α} (hm : Writes D m l) (f : α → γ) :
    Writes D (m >>= fun a => Pure.pure (f a)) l := by
  have h := hm.bind fun a => Writes.pure (D := D) (f a)
  rwa [List.append_nil] at h

/-- A loop over a list. -/
theorem Writes.list {m : ι → StateT σ Option PUnit} {f : ι → List β} :
    ∀ {is : List ι}, (∀ i ∈ is, Writes D (m i) (f i)) → Writes D (forM is m) (is.flatMap f)
  | [], _ => Writes.pure _
  | i :: is, h => by
    rw [List.forM_cons, List.flatMap_cons]
    exact (h i List.mem_cons_self).bind fun _ =>
      Writes.list fun j hj => h j (List.mem_cons_of_mem i hj)

end

end LsePc.Lib
