/-
  File:      LsePc/Lib/Chain.lean
  Subject:   Linked lists in an array: a `next` field and a null index.

  * `Chain null next b l`: from `b` the links lead through the nodes of `l`, in
    order, to `null`;
  * a chain is determined by its first node (`Chain.unique`) and repeats no node
    (`Chain.nodup`); only the links of its own nodes matter (`Chain.congr`);
  * `Chain.of_measure`: links along which a measure falls are a chain;
  * `Chain.cut`: a null link ends a chain where it is written; `Chain.range`: the links
    of an array that is one list;
  * `walk`: the nodes a loop over the links visits, `Chain.walk`.
-/
import Mathlib.Data.List.Nodup
import Mathlib.Data.Nat.Init
import Mathlib.Logic.Function.Basic

namespace LsePc.Lib

variable {α : Type} {null : α} {next next' : α → α} {b x : α} {l pre post : List α}

/-- From `b` the links lead through the nodes of `l` to `null`. -/
inductive Chain (null : α) (next : α → α) : α → List α → Prop where
  | nil : Chain null next null []
  | cons {b : α} {l : List α} (hb : b ≠ null) (h : Chain null next (next b) l) :
      Chain null next b (b :: l)

namespace Chain

theorem nil_iff : Chain null next b [] ↔ b = null := by
  constructor
  · intro h
    cases h
    rfl
  · intro he
    obtain rfl := he
    exact .nil

theorem cons_iff : Chain null next b (x :: l) ↔ b = x ∧ b ≠ null ∧ Chain null next (next b) l := by
  constructor
  · intro h
    cases h with
    | cons hb h => exact ⟨rfl, hb, h⟩
  · intro h
    obtain ⟨rfl, hb, h⟩ := h
    exact .cons hb h

theorem unique {l' : List α} (h : Chain null next b l) (h' : Chain null next b l') : l = l' := by
  induction h generalizing l' with
  | nil =>
    cases h' with
    | nil => rfl
    | cons hb _ => exact absurd rfl hb
  | cons hb _ ih =>
    cases h' with
    | nil => exact absurd rfl hb
    | cons _ h' => rw [ih h']

theorem null_notMem (h : Chain null next b l) : null ∉ l := by
  induction h with
  | nil => exact List.not_mem_nil
  | cons hb _ ih =>
    intro hmem
    rcases List.mem_cons.mp hmem with he | hmem
    · exact hb he.symm
    · exact ih hmem

/-- The rest of a chain, from one of its nodes. -/
theorem split (h : Chain null next b (pre ++ x :: post)) : Chain null next x (x :: post) := by
  induction pre generalizing b with
  | nil =>
    obtain ⟨rfl, hb, h⟩ := cons_iff.mp h
    exact .cons hb h
  | cons y pre ih =>
    obtain ⟨rfl, -, h⟩ := cons_iff.mp h
    exact ih h

/-- **A chain repeats no node**: the way to null from a node has one length. -/
theorem nodup (h : Chain null next b l) : l.Nodup := by
  induction h with
  | nil => exact List.nodup_nil
  | @cons b l hb h ih =>
    refine List.nodup_cons.mpr ⟨fun hmem => ?_, ih⟩
    obtain ⟨pre, post, rfl⟩ := List.append_of_mem hmem
    have hlen := congrArg List.length (unique (split h) (.cons hb h))
    simp only [List.length_cons, List.length_append] at hlen
    omega

theorem congr (hn : ∀ x ∈ l, next x = next' x) (h : Chain null next b l) :
    Chain null next' b l := by
  induction h with
  | nil => exact .nil
  | @cons b l hb _ ih =>
    refine .cons hb ?_
    rw [← hn b List.mem_cons_self]
    exact ih fun x hx => hn x (List.mem_cons_of_mem b hx)

/-- **Links along which a measure falls** lead to null. -/
theorem of_measure {P : α → Prop} (f : α → Nat)
    (h : ∀ x, P x → x ≠ null ∧ (next x = null ∨ P (next x) ∧ f (next x) < f x))
    (hb : b = null ∨ P b) : ∃ l, Chain null next b l ∧ ∀ x ∈ l, P x := by
  rcases hb with rfl | hb
  · exact ⟨[], .nil, nofun⟩
  · induction hn : f b using Nat.strong_induction_on generalizing b with
    | _ n ih =>
      obtain ⟨hb0, h0 | ⟨hP, hlt⟩⟩ := h b hb
      · refine ⟨[b], .cons hb0 ?_, fun x hx => List.mem_singleton.mp hx ▸ hb⟩
        rw [h0]
        exact .nil
      · obtain ⟨l, hl, hPl⟩ := ih (f (next b)) (hn ▸ hlt) hP rfl
        refine ⟨b :: l, .cons hb0 hl, fun x hx => ?_⟩
        rcases List.mem_cons.mp hx with rfl | hx
        · exact hb
        · exact hPl x hx

variable [DecidableEq α]

/-- A link written outside of a chain. -/
theorem update {v : α} (h : Chain null next b l) (hx : x ∉ l) :
    Chain null (Function.update next x v) b l := by
  refine h.congr fun y hy => ?_
  have hne : y ≠ x := by
    intro he
    obtain rfl := he
    exact hx hy
  rw [Function.update_of_ne hne]

/-- **A null link written at a node of a chain ends it there.** -/
theorem cut (h : Chain null next b (pre ++ x :: post)) :
    Chain null (Function.update next x null) b (pre ++ [x]) := by
  induction pre generalizing b with
  | nil =>
    obtain ⟨rfl, hb, -⟩ := cons_iff.mp h
    refine .cons hb ?_
    rw [Function.update_self]
    exact .nil
  | cons y pre ih =>
    have hnd := h.nodup
    obtain ⟨rfl, hb, h⟩ := cons_iff.mp h
    refine .cons hb ?_
    have hne : b ≠ x := by
      intro he
      obtain rfl := he
      exact (List.nodup_cons.mp hnd).1 (List.mem_append_right _ List.mem_cons_self)
    rw [Function.update_of_ne hne]
    exact ih h

/-- Links from each number to the next one, up to the last below `n`. -/
theorem range {next : Nat → Nat} {n : Nat} (h : ∀ i, 0 < i → i + 1 < n → next i = i + 1)
    (hlast : ∀ i, i + 1 = n → next i = 0) :
    ∀ k b, 0 < b → b + (k + 1) = n → Chain 0 next b (List.range' b (k + 1))
  | 0, b, hb, hn => by
    refine .cons (Nat.ne_of_gt hb) ?_
    rw [hlast b hn]
    exact .nil
  | k + 1, b, hb, hn => by
    rw [List.range'_succ]
    refine .cons (Nat.ne_of_gt hb) ?_
    rw [h b hb (by omega)]
    exact range h hlast k (b + 1) (Nat.succ_pos b) (by omega)

end Chain

/-! ## Loops over the links -/

/-- The nodes `for (i = b; i != null; i = next(i))` visits in its first `n` turns. -/
def walk [DecidableEq α] (null : α) (next : α → α) : Nat → α → List α
  | 0, _ => []
  | n + 1, b => if b = null then [] else b :: walk null next n (next b)

theorem Chain.walk [DecidableEq α] (h : Chain null next b l) {n : Nat} (hn : l.length ≤ n) :
    walk null next n b = l := by
  induction h generalizing n with
  | nil =>
    cases n with
    | zero => rfl
    | succ n => exact if_pos rfl
  | cons hb _ ih =>
    cases n with
    | zero => exact absurd hn (Nat.not_succ_le_zero _)
    | succ n => rw [LsePc.Lib.walk, if_neg hb, ih (Nat.le_of_succ_le_succ hn)]

end LsePc.Lib
