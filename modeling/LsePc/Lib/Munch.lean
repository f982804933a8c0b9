/-
  File:      LsePc/Lib/Munch.lean
  Subject:   Lexical analysis by the longest match.

  A rule says which words it matches. Of an input the longest prefix is taken that a rule
  matches, and of the rules that match it the first one. This file names nothing of any
  particular language.

  * `longest`: the longest prefix with a property, if one is not empty;
  * `munch`: the word that is taken, its rule, and the rest;
  * `Maximal`: no rule matches more of an input than this word;
  * **result** (`munch_iff`): a word is taken exactly if it is maximal.
-/
import Mathlib.Data.List.Basic

namespace LsePc.Lib

variable {α ρ : Type}

/-- The longest prefix of `input` with `p`, of those with 1 to `n` letters. -/
def longest (p : List α → Bool) (input : List α) : Nat → Option Nat
  | 0 => none
  | n + 1 => if p (input.take (n + 1)) then some (n + 1) else longest p input n

theorem longest_iff {p : List α → Bool} {input : List α} {n k : Nat} :
    longest p input n = some k ↔ 0 < k ∧ k ≤ n ∧ p (input.take k) = true ∧
      ∀ j, k < j → j ≤ n → p (input.take j) = false := by
  induction n with
  | zero =>
    constructor
    · intro h
      cases h
    · intro h
      omega
  | succ n ih =>
    unfold longest
    split
    · rename_i hp
      constructor
      · intro h
        cases h
        exact ⟨n.succ_pos, Nat.le_refl _, hp, fun j hk hj => by omega⟩
      · rintro ⟨-, hk, -, hno⟩
        by_contra hne
        have hlt : k < n + 1 := Nat.lt_of_le_of_ne hk fun h => hne (congrArg some h.symm)
        rw [hno (n + 1) hlt (Nat.le_refl _)] at hp
        cases hp
    · rename_i hp
      rw [ih]
      constructor
      · rintro ⟨h0, hk, hpk, hno⟩
        refine ⟨h0, Nat.le_succ_of_le hk, hpk, fun j hj hjn => ?_⟩
        rcases Nat.lt_or_ge j (n + 1) with hlt | hge
        · exact hno j hj (Nat.le_of_lt_succ hlt)
        · obtain rfl := Nat.le_antisymm hjn hge
          exact Bool.not_eq_true _ ▸ hp
      · rintro ⟨h0, hk, hpk, hno⟩
        refine ⟨h0, Nat.le_of_lt_succ (Nat.lt_of_le_of_ne hk fun h => ?_), hpk,
          fun j hj hjn => hno j hj (Nat.le_succ_of_le hjn)⟩
        rw [h] at hpk
        exact hp hpk

theorem longest_some {p : List α → Bool} {input : List α} {n k : Nat} (h0 : 0 < k) (hk : k ≤ n)
    (hp : p (input.take k) = true) : ∃ m, longest p input n = some m := by
  induction n with
  | zero => omega
  | succ n ih =>
    unfold longest
    split
    · exact ⟨_, rfl⟩
    · rename_i hno
      refine ih (Nat.le_of_lt_succ (Nat.lt_of_le_of_ne hk fun h => ?_))
      rw [h] at hp
      exact hno hp

section
variable (accepts : ρ → List α → Bool) (rules : List ρ)

/-- The rule, its word and the rest of the input. -/
def munch (input : List α) : Option (ρ × List α × List α) := do
  let n ← longest (fun w => rules.any fun r => accepts r w) input input.length
  let r ← rules.find? fun r => accepts r (input.take n)
  pure (r, input.take n, input.drop n)

/-- No rule matches the word `w` and more of what comes after it. -/
def Maximal (w rest : List α) : Prop :=
  ∀ v, v ≠ [] → v <+: rest → ∀ r ∈ rules, accepts r (w ++ v) = false

/-- **The longest match.** -/
theorem munch_iff {input w rest : List α} {r : ρ} :
    munch accepts rules input = some (r, w, rest) ↔ input = w ++ rest ∧ w ≠ [] ∧
      (rules.find? fun r => accepts r w) = some r ∧ Maximal accepts rules w rest := by
  constructor
  · intro h
    unfold munch at h
    obtain ⟨n, hn, h⟩ := Option.bind_eq_some_iff.mp h
    obtain ⟨r', hr, h⟩ := Option.bind_eq_some_iff.mp h
    cases h
    obtain ⟨h0, hlen, -, hno⟩ := longest_iff.mp hn
    refine ⟨(List.take_append_drop n input).symm, ?_, hr, ?_⟩
    · intro hnil
      have hzero := congrArg List.length hnil
      rw [List.length_take_of_le hlen] at hzero
      exact absurd hzero (Nat.ne_of_gt h0)
    · rintro v hv ⟨u, hu⟩ r hr
      have htake : input.take n ++ v = input.take (n + v.length) := by
        rw [List.take_add, ← hu, List.take_left]
      have hle : n + v.length ≤ input.length := by
        have hrest := congrArg List.length hu
        rw [List.length_append, List.length_drop] at hrest
        omega
      have hlong := hno (n + v.length) (Nat.lt_add_of_pos_right (List.length_pos_iff.mpr hv)) hle
      rw [htake]
      exact Bool.not_eq_true _ ▸ List.any_eq_false.mp hlong r hr
  · rintro ⟨rfl, hw, hr, hmax⟩
    have hn : longest (fun w => rules.any fun r => accepts r w) (w ++ rest)
        (w ++ rest).length = some w.length := by
      refine longest_iff.mpr ⟨List.length_pos_iff.mpr hw, by simp, ?_, fun j hj hle => ?_⟩
      · rw [List.take_left]
        exact List.any_eq_true.mpr ⟨r, List.mem_of_find?_eq_some hr,
          List.find?_some (p := fun r => accepts r w) hr⟩
      · obtain ⟨d, rfl⟩ := Nat.exists_eq_add_of_lt hj
        have hd : d + 1 ≤ rest.length := by
          rw [List.length_append] at hle
          omega
        rw [Nat.add_assoc, List.take_length_add_append]
        refine List.any_eq_false.mpr fun r hr => ?_
        have hne : rest.take (d + 1) ≠ [] := by
          intro hnil
          have hlen := congrArg List.length hnil
          rw [List.length_take_of_le hd] at hlen
          cases hlen
        rw [hmax _ hne (List.take_prefix _ _) r hr]
        exact Bool.false_ne_true
    unfold munch
    rw [hn]
    simp [hr]

/-- Something is taken where a rule matches something. -/
theorem munch_some {w rest : List α} {r : ρ} (hw : w ≠ []) (hr : r ∈ rules)
    (h : accepts r w = true) : ∃ m, munch accepts rules (w ++ rest) = some m := by
  have hany : (fun u => rules.any fun r => accepts r u) ((w ++ rest).take w.length) = true := by
    rw [List.take_left]
    exact List.any_eq_true.mpr ⟨r, hr, h⟩
  obtain ⟨n, hn⟩ := longest_some (p := fun u => rules.any fun r => accepts r u)
    (n := (w ++ rest).length) (List.length_pos_iff.mpr hw) (by simp) hany
  obtain ⟨-, -, hp, -⟩ := longest_iff.mp hn
  have hfind : (rules.find? fun r => accepts r ((w ++ rest).take n)).isSome = true := by
    rw [List.find?_isSome]
    exact List.any_eq_true.mp hp
  obtain ⟨r', hr'⟩ := Option.isSome_iff_exists.mp hfind
  unfold munch
  rw [hn]
  simp [hr']

end

end LsePc.Lib
