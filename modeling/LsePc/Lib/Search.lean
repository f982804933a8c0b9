/-
  File:      LsePc/Lib/Search.lean
  Subject:   Loops along the links of an array that may be left early.

  * `Search null next stop b l r`: the loop `for (i = b; i != null && !stop(i); i = next(i))`
    comes to its end; it has visited the nodes of `l`, in order, and leaves with `i = r`;
  * a search has one outcome (`Search.unique`) and visits no node twice (`Search.nodup`):
    a loop that comes back to a node does not come to its end;
  * `Chain.search`: on a chain it visits a prefix, and finds what `List.find?` finds;
  * `Search.not_of_closed`: the loop that does not end;
  * `loop`: the same loop with a bound of its turns, which is the search where they are enough
    (`Search.loop`, `search_of_loop`).
-/
import LsePc.Lib.Chain

namespace LsePc.Lib

variable {α : Type} {null : α} {next : α → α} {stop : α → Bool} {b r : α} {l : List α}

inductive Search (null : α) (next : α → α) (stop : α → Bool) : α → List α → α → Prop where
  | null : Search null next stop null [] null
  | found {b : α} (hb : b ≠ null) (hs : stop b = true) : Search null next stop b [b] b
  | skip {b r : α} {l : List α} (hb : b ≠ null) (hs : stop b = false)
      (h : Search null next stop (next b) l r) : Search null next stop b (b :: l) r

namespace Search

theorem unique {l' : List α} {r' : α} (h : Search null next stop b l r)
    (h' : Search null next stop b l' r') : l = l' ∧ r = r' := by
  induction h generalizing l' with
  | null =>
    cases h' with
    | null => exact ⟨rfl, rfl⟩
    | found hb _ => exact absurd rfl hb
    | skip hb _ _ => exact absurd rfl hb
  | found hb hs =>
    cases h' with
    | null => exact absurd rfl hb
    | found _ _ => exact ⟨rfl, rfl⟩
    | skip _ hs' _ => exact absurd (hs.symm.trans hs') (by decide)
  | skip hb hs _ ih =>
    cases h' with
    | null => exact absurd rfl hb
    | found _ hs' => exact absurd (hs.symm.trans hs') (by decide)
    | skip _ _ h' =>
      obtain ⟨rfl, rfl⟩ := ih h'
      exact ⟨rfl, rfl⟩

/-- The rest of a search, from one of its nodes. -/
theorem split {x : α} {pre post : List α} (h : Search null next stop b (pre ++ x :: post) r) :
    Search null next stop x (x :: post) r := by
  induction pre generalizing b with
  | nil =>
    cases h with
    | found hb hs => exact .found hb hs
    | skip hb hs h => exact .skip hb hs h
  | cons y pre ih =>
    generalize hl : y :: pre ++ x :: post = l at h
    cases h with
    | null => cases hl
    | found _ _ => simp at hl
    | skip _ _ h =>
      obtain ⟨rfl, rfl⟩ := List.cons.inj hl
      exact ih h

/-- **A search that ends visits no node twice.** -/
theorem nodup (h : Search null next stop b l r) : l.Nodup := by
  induction h with
  | null => exact List.nodup_nil
  | found _ _ => exact List.nodup_singleton _
  | @skip b r l hb hs h ih =>
    refine List.nodup_cons.mpr ⟨fun hmem => ?_, ih⟩
    obtain ⟨pre, post, rfl⟩ := List.append_of_mem hmem
    have hlen := congrArg List.length (unique (split h) (.skip hb hs h)).1
    simp only [List.length_cons, List.length_append] at hlen
    omega

/-- **The loop that does not end**: nodes that lead to each other, none of them the one. -/
theorem not_of_closed {P : α → Prop} (hP : ∀ x, P x → x ≠ null ∧ stop x = false ∧ P (next x))
    (hb : P b) : ¬ Search null next stop b l r := by
  intro h
  induction h with
  | null => exact (hP _ hb).1 rfl
  | found _ hs => exact absurd (hs.symm.trans (hP _ hb).2.1) (by decide)
  | skip _ _ _ ih => exact ih (hP _ hb).2.2

end Search

/-- **A search on a chain** ends, after a prefix of it. -/
theorem Chain.search (h : Chain null next b l) (stop : α → Bool) :
    ∃ l', l' <+: l ∧ Search null next stop b l' ((l.find? stop).getD null) := by
  induction h with
  | nil => exact ⟨[], List.prefix_refl _, .null⟩
  | @cons b l hb _ ih =>
    cases hs : stop b with
    | true =>
      refine ⟨[b], ⟨l, rfl⟩, ?_⟩
      rw [List.find?_cons_of_pos hs]
      exact .found hb hs
    | false =>
      obtain ⟨l', hpre, h⟩ := ih
      refine ⟨b :: l', List.cons_prefix_cons.mpr ⟨rfl, hpre⟩, ?_⟩
      rw [List.find?_cons_of_neg (by rw [hs]; decide)]
      exact .skip hb hs h

/-! ## Bounded loops -/

/-- The loop, if it comes to its end in its first `n` turns. -/
def loop [DecidableEq α] (null : α) (next : α → α) (stop : α → Bool) : Nat → α → Option α
  | 0, _ => none
  | n + 1, b => if b = null ∨ stop b = true then some b else loop null next stop n (next b)

section
variable [DecidableEq α] {n : Nat}

/-- Enough turns for a search. -/
theorem Search.loop (h : Search null next stop b l r) (hn : l.length < n) :
    loop null next stop n b = some r := by
  induction h generalizing n with
  | null =>
    obtain ⟨n, rfl⟩ := Nat.exists_eq_succ_of_ne_zero (Nat.ne_of_gt hn)
    exact if_pos (.inl rfl)
  | found _ hs =>
    obtain ⟨n, rfl⟩ := Nat.exists_eq_succ_of_ne_zero (Nat.ne_of_gt (Nat.zero_lt_of_lt hn))
    exact if_pos (.inr hs)
  | skip hb hs _ ih =>
    obtain ⟨n, rfl⟩ := Nat.exists_eq_succ_of_ne_zero (Nat.ne_of_gt (Nat.zero_lt_of_lt hn))
    rw [Lib.loop, if_neg (not_or.mpr ⟨hb, by rw [hs]; decide⟩)]
    exact ih (Nat.lt_of_succ_lt_succ hn)

theorem search_of_loop (h : loop null next stop n b = some r) :
    ∃ l, Search null next stop b l r := by
  induction n generalizing b with
  | zero => cases h
  | succ n ih =>
    rw [Lib.loop] at h
    split at h
    · rename_i hend
      cases h
      by_cases hr : r = null
      · exact ⟨[], hr ▸ .null⟩
      · exact ⟨[r], .found hr (hend.resolve_left hr)⟩
    · rename_i hgo
      obtain ⟨hb, hs⟩ := not_or.mp hgo
      obtain ⟨l, hl⟩ := ih h
      exact ⟨b :: l, .skip hb (Bool.eq_false_iff.mpr hs) hl⟩

end

end LsePc.Lib
