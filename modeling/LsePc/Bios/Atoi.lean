/-
  File:      LsePc/Bios/Atoi.lean
  Subject:   `atoi` of sw/bios/src/string.c.

  * the function with its byte-wide index. A read behind the NUL is a `fault`;
  * `Numeral`: the strings that are a number, and its value;
  * **results**: when `atoi` decides the grammar (`atoi_decides_iff`), and that it reads what
    `itoa` wrote (`atoi_itoa`).
-/
import LsePc.Bios.Itoa
import LsePc.Bios.Printf

namespace LsePc.Bios

open LsePc.Lib

/-! ## 1. The source -/

/-- The value of a digit in some base. -/
def digitOf (n : UInt8) : Option UInt8 :=
  if 0x61 ≤ n ∧ n ≤ 0x66 then some (n + 10 - 0x61)
  else if 0x41 ≤ n ∧ n ≤ 0x46 then some (n + 10 - 0x41)
  else if 0x30 ≤ n ∧ n ≤ 0x39 then some (n - 0x30)
  else none

/-- The state of the loop of `atoi`. -/
structure Atoi where
  i : UInt8
  res : BitVec 32

/-- `str[i]` of a string, whose NUL is the last byte that may be read. -/
def charAt (str : List UInt8) (i : UInt8) : Option UInt8 := (str ++ [0])[i.toNat]?

def atoiRound (str : List UInt8) (base : UInt8) (s : Atoi) : Round Atoi (Nat × BitVec 32) :=
  match charAt str s.i with
  | none => .fault
  | some c =>
    if c = 0 then .leave (0, s.res)
    else
      match digitOf c with
      | none => .leave (1, s.res)
      | some n =>
        if base ≤ n then .leave (1, s.res)
        else
          .next { i := s.i + 1,
                  res := s.res * BitVec.ofNat 32 base.toNat + BitVec.ofNat 32 n.toNat }

/-- The index behind the prefix, and the base it selects. -/
def atoiPrefix (str : List UInt8) : Outcome (UInt8 × UInt8) :=
  match charAt str 0 with
  | none => .fault
  | some c =>
    if c = 0x30 then
      match charAt str 1 with
      | none => .fault
      | some c =>
        if c = 0x78 then .done (2, 16) else if c = 0x62 then .done (2, 2) else .done (1, 8)
    else .done (0, 10)

/-- What is returned, with `*res`, which a null string leaves as it was. -/
def atoi (rounds : Nat) (res : BitVec 32) : Option (List UInt8) → Outcome (Nat × BitVec 32)
  | none => .done (1, res)
  | some str => do
    let (i, base) ← atoiPrefix str
    runLoop (atoiRound str base) rounds { i := i, res := 0 }

/-! ## 2. The grammar -/

/-- The character `c` is the digit `d`, in either case. -/
def IsDigit (c : UInt8) (d : Nat) : Prop := digits[d]? = some c ∨ upperDigits[d]? = some c

/-- The characters `ds` are the digits `vs` of base `b`. -/
def Reads (b : Nat) (ds : List UInt8) (vs : List Nat) : Prop :=
  List.Forall₂ (fun c d => d < b ∧ IsDigit c d) ds vs

/-- **The strings that are a number**, with its value: decimal digits that do not start with 0,
    0 and octal digits, 0x and hexadecimal digits, 0b and binary digits. -/
inductive Numeral : List UInt8 → Nat → Prop where
  | dec {ds : List UInt8} {vs : List Nat} (h : Reads 10 ds vs) (h0 : ds.head? ≠ some 0x30) :
      Numeral ds (Nat.ofDigits 10 vs.reverse)
  | oct {ds : List UInt8} {vs : List Nat} (h : Reads 8 ds vs) :
      Numeral (0x30 :: ds) (Nat.ofDigits 8 vs.reverse)
  | hex {ds : List UInt8} {vs : List Nat} (h : Reads 16 ds vs) :
      Numeral (0x30 :: 0x78 :: ds) (Nat.ofDigits 16 vs.reverse)
  | bin {ds : List UInt8} {vs : List Nat} (h : Reads 2 ds vs) :
      Numeral (0x30 :: 0x62 :: ds) (Nat.ofDigits 2 vs.reverse)

def IsNumeral (str : List UInt8) : Prop := ∃ v, Numeral str v

/-- `atoi` ends; it returns 0 for a number, whose value modulo 2 ^ 32 is in `*res`, and 1 for
    any other string. -/
def AtoiDecides (str : List UInt8) : Prop :=
  ∃ ret v, (∀ res, Returns (fun rounds => atoi rounds res (some str)) (ret, v)) ∧
    ((ret = 0 ∧ ∃ k, Numeral str k ∧ v.toNat = k % 2 ^ 32) ∨ (ret = 1 ∧ ¬ IsNumeral str))

/-- The string starts with 0x or 0b. -/
def LetterPrefix (str : List UInt8) : Prop :=
  ∃ ds, str = 0x30 :: 0x78 :: ds ∨ str = 0x30 :: 0x62 :: ds

theorem digitOf_get : ∀ d < 16, digits[d]?.bind digitOf = some (UInt8.ofNat d) ∧
    upperDigits[d]?.bind digitOf = some (UInt8.ofNat d) := by decide

theorem get_digitOf : ∀ k < 256, ∀ n ∈ digitOf (UInt8.ofNat k),
    digits[n.toNat]? = some (UInt8.ofNat k) ∨ upperDigits[n.toNat]? = some (UInt8.ofNat k) := by
  decide +kernel

/-- The ranges of `atoi` are the digits. -/
theorem isDigit_iff {c : UInt8} {d : Nat} :
    IsDigit c d ↔ ∃ n, digitOf c = some n ∧ n.toNat = d := by
  constructor
  · intro h
    have hd : d < 16 := by
      rcases h with h | h
      · exact (List.getElem?_eq_some_iff.mp h).1
      · exact (List.getElem?_eq_some_iff.mp h).1
    obtain ⟨hlow, hup⟩ := digitOf_get d hd
    refine ⟨UInt8.ofNat d, ?_, by rw [UInt8.toNat_ofNat']; omega⟩
    rcases h with h | h
    · rwa [h] at hlow
    · rwa [h] at hup
  · rintro ⟨n, hn, rfl⟩
    have h := get_digitOf c.toNat c.toNat_lt n
    rw [UInt8.ofNat_toNat] at h
    exact h hn

/-- No digit of the base `b`. -/
def NoDigit (b : Nat) (c : UInt8) : Prop := ∀ d < b, ¬ IsDigit c d

/-- The digits at the start of a string, as far as they go. -/
theorem reads_split (b : Nat) (ds : List UInt8) :
    (∃ vs, Reads b ds vs) ∨
      ∃ good vs c rest, ds = good ++ c :: rest ∧ Reads b good vs ∧ NoDigit b c := by
  induction ds with
  | nil => exact .inl ⟨[], .nil⟩
  | cons c ds ih =>
    by_cases hc : ∃ d < b, IsDigit c d
    · obtain ⟨d, hd, hc⟩ := hc
      rcases ih with ⟨vs, h⟩ | ⟨good, vs, c', rest, rfl, h, hbad⟩
      · exact .inl ⟨d :: vs, .cons ⟨hd, hc⟩ h⟩
      · exact .inr ⟨c :: good, d :: vs, c', rest, rfl, .cons ⟨hd, hc⟩ h, hbad⟩
    · refine .inr ⟨[], [], c, ds, rfl, .nil, fun d hd h => hc ⟨d, hd, h⟩⟩

theorem Reads.isDigit {b : Nat} {ds : List UInt8} {vs : List Nat} (h : Reads b ds vs) {c : UInt8}
    (hc : c ∈ ds) : ∃ d < b, IsDigit c d := by
  unfold Reads at h
  induction h with
  | nil => nomatch hc
  | cons hd _ ih =>
    rcases List.mem_cons.mp hc with rfl | hc
    · exact ⟨_, hd⟩
    · exact ih hc

/-! ## 3. The loop of `atoi` -/

section
variable {str pre good rest : List UInt8} {base c : UInt8} {vs : List Nat} {r : BitVec 32}

theorem charAt_append (hpre : pre.length < 256) :
    charAt (pre ++ rest) (UInt8.ofNat pre.length) = (rest ++ [0])[0]? := by
  unfold charAt
  rw [UInt8.toNat_ofNat', Nat.mod_eq_of_lt hpre, List.append_assoc, List.getElem?_append_right
    (Nat.le_refl _), Nat.sub_self]

/-- The accumulator of `atoi`, from `r` on. -/
def accumulate (base : UInt8) (vs : List Nat) (r : BitVec 32) : BitVec 32 :=
  vs.foldl (fun r d => r * BitVec.ofNat 32 base.toNat + BitVec.ofNat 32 d) r

/-- A round on a digit. -/
theorem atoiRound_digit {d : Nat} (hd : d < base.toNat) (hc : IsDigit c d)
    (hpre : pre.length < 256) :
    atoiRound (pre ++ c :: rest) base ⟨UInt8.ofNat pre.length, r⟩ =
      .next ⟨UInt8.ofNat (pre.length + 1), accumulate base [d] r⟩ := by
  obtain ⟨n, hn, rfl⟩ := isDigit_iff.mp hc
  have hc0 : c ≠ 0 := by
    rintro rfl
    nomatch hn
  unfold atoiRound
  rw [charAt_append hpre]
  simp only [List.cons_append, List.getElem?_cons_zero, if_neg hc0, hn]
  rw [if_neg (fun hle => Nat.not_le_of_lt hd (UInt8.le_iff_toNat_le.mp hle)), UInt8.ofNat_add]
  rfl

/-- A round on any other character ends the loop. -/
theorem atoiRound_bad (hc : NoDigit base.toNat c) (hc0 : c ≠ 0) (hpre : pre.length < 256) :
    atoiRound (pre ++ c :: rest) base ⟨UInt8.ofNat pre.length, r⟩ = .leave (1, r) := by
  unfold atoiRound
  rw [charAt_append hpre]
  simp only [List.cons_append, List.getElem?_cons_zero, if_neg hc0]
  cases hn : digitOf c with
  | none => rfl
  | some n =>
    have hle : base ≤ n := by
      refine UInt8.le_iff_toNat_le.mpr (Nat.le_of_not_lt fun hlt => ?_)
      exact hc _ hlt (isDigit_iff.mpr ⟨n, hn, rfl⟩)
    exact if_pos hle

/-- So does the NUL. -/
theorem atoiRound_end (hpre : pre.length < 256) :
    atoiRound pre base ⟨UInt8.ofNat pre.length, r⟩ = .leave (0, r) := by
  have hc := @charAt_append _ [] hpre
  rw [List.append_nil] at hc
  unfold atoiRound
  rw [hc]
  rfl

/-- **The loop over digits**, at most up to the index that is 0 again. -/
theorem atoi_walk (h : Reads base.toNat good vs) (hlen : pre.length + good.length ≤ 256)
    (n : Nat) :
    runLoop (atoiRound (pre ++ (good ++ rest)) base) (n + good.length)
        ⟨UInt8.ofNat pre.length, r⟩ =
      runLoop (atoiRound (pre ++ (good ++ rest)) base) n
        ⟨UInt8.ofNat (pre.length + good.length), accumulate base vs r⟩ := by
  unfold Reads at h
  induction h generalizing pre r with
  | nil => rfl
  | @cons c d good vs hd _ ih =>
    rw [List.length_cons] at hlen
    have hround : atoiRound (pre ++ (c :: good ++ rest)) base ⟨UInt8.ofNat pre.length, r⟩ = _ :=
      atoiRound_digit hd.1 hd.2 (by omega)
    rw [List.length_cons, ← Nat.add_assoc, loop_next hround]
    have hshift : pre ++ (c :: good ++ rest) = (pre ++ [c]) ++ (good ++ rest) := by
      rw [List.append_assoc]
      rfl
    have hpre : (pre ++ [c]).length = pre.length + 1 := List.length_append
    have ih := @ih (pre ++ [c]) (accumulate base [d] r) (by omega)
    rw [hpre, ← hshift] at ih
    rw [ih, Nat.add_right_comm pre.length 1, Nat.add_assoc]
    rfl

/-- The accumulator holds the number modulo 2 ^ 32. -/
theorem accumulate_toNat (base : UInt8) (vs : List Nat) :
    (accumulate base vs 0).toNat = Nat.ofDigits base.toNat vs.reverse % 2 ^ 32 := by
  have hfold : accumulate base vs 0 =
      BitVec.ofNat 32 (vs.foldl (fun k d => d + base.toNat * k) 0) := by
    unfold accumulate
    refine List.foldl_hom (BitVec.ofNat 32) ?_
    intro k d
    rw [BitVec.ofNat_add, BitVec.ofNat_mul, BitVec.add_comm, BitVec.mul_comm]
  rw [hfold, BitVec.toNat_ofNat, Nat.ofDigits_eq_foldr, List.foldr_reverse]
  rfl

end

/-! ## 4. `atoi` decides the grammar -/

/-- The prefix `p` selects the base for what is behind it. -/
inductive Selects : List UInt8 → UInt8 → List UInt8 → Prop where
  | dec {ds : List UInt8} (h : ds.head? ≠ some 0x30) : Selects [] 10 ds
  | oct {ds : List UInt8} (hx : ds.head? ≠ some 0x78) (hb : ds.head? ≠ some 0x62) :
      Selects [0x30] 8 ds
  | hex {ds : List UInt8} : Selects [0x30, 0x78] 16 ds
  | bin {ds : List UInt8} : Selects [0x30, 0x62] 2 ds

theorem exists_selects (str : List UInt8) :
    ∃ p base ds, str = p ++ ds ∧ Selects p base ds := by
  by_cases h0 : str.head? = some 0x30
  · obtain ⟨ds, rfl⟩ := List.head?_eq_some_iff.mp h0
    by_cases hx : ds.head? = some 0x78
    · obtain ⟨ds, rfl⟩ := List.head?_eq_some_iff.mp hx
      exact ⟨_, _, _, rfl, .hex⟩
    · by_cases hb : ds.head? = some 0x62
      · obtain ⟨ds, rfl⟩ := List.head?_eq_some_iff.mp hb
        exact ⟨_, _, _, rfl, .bin⟩
      · exact ⟨_, _, _, rfl, .oct hx hb⟩
  · exact ⟨_, _, _, rfl, .dec h0⟩

section
variable {p ds : List UInt8} {base : UInt8}

theorem Selects.length_le (h : Selects p base ds) : p.length ≤ 2 := by
  cases h <;> decide

theorem Selects.take (h : Selects p base ds) {k : Nat} (hk : 0 < k) :
    Selects p base (ds.take k) := by
  have hhead : (ds.take k).head? = ds.head? := by
    rw [List.head?_take, if_neg (Nat.ne_of_gt hk)]
  cases h with
  | dec h => exact .dec (hhead ▸ h)
  | oct hx hb => exact .oct (hhead ▸ hx) (hhead ▸ hb)
  | hex => exact .hex
  | bin => exact .bin

/-- `atoi` finds the prefix. -/
theorem Selects.atoi_eq (h : Selects p base ds) (rounds : Nat) (res : BitVec 32) :
    atoi rounds res (some (p ++ ds)) =
      runLoop (atoiRound (p ++ ds) base) rounds ⟨UInt8.ofNat p.length, 0⟩ := by
  have hprefix : atoiPrefix (p ++ ds) = .done (UInt8.ofNat p.length, base) := by
    cases h with
    | dec h =>
      cases ds with
      | nil => rfl
      | cons c ds =>
        have hc : c ≠ 0x30 := fun e => h (congrArg some e)
        exact if_neg hc
    | oct hx hb =>
      cases ds with
      | nil => rfl
      | cons c ds =>
        have hcx : c ≠ 0x78 := fun e => hx (congrArg some e)
        have hcb : c ≠ 0x62 := fun e => hb (congrArg some e)
        exact (if_neg hcx).trans (if_neg hcb)
    | hex => rfl
    | bin => rfl
  exact Outcome.bind_done hprefix _

theorem noDigit_iff {b : Nat} {c : UInt8} : NoDigit b c ↔ ∀ n ∈ digitOf c, b ≤ n.toNat := by
  constructor
  · intro h n hn
    exact Nat.le_of_not_lt fun hlt => h _ hlt (isDigit_iff.mpr ⟨n, hn, rfl⟩)
  · intro h d hd hc
    obtain ⟨n, hn, rfl⟩ := isDigit_iff.mp hc
    exact Nat.not_lt_of_le (h n hn) hd

theorem Reads.not_noDigit {b : Nat} {c : UInt8} {vs : List Nat} (h : Reads b ds vs) (hc : c ∈ ds) :
    ¬ NoDigit b c := by
  obtain ⟨d, hd, hcd⟩ := h.isDigit hc
  exact fun hno => hno d hd hcd

theorem noDigit_x (b : Nat) : NoDigit b 0x78 := noDigit_iff.mpr nofun

theorem noDigit_b {b : Nat} (hb : b ≤ 11) : NoDigit b 0x62 := by
  refine noDigit_iff.mpr fun n hn => ?_
  obtain rfl : n = 11 := (Option.some.inj hn).symm
  exact hb

/-- A string is a number when what is behind its prefix is digits of the base selected. -/
theorem Selects.numeral_iff (h : Selects p base ds) {v : Nat} : Numeral (p ++ ds) v ↔
    ∃ vs, Reads base.toNat ds vs ∧ v = Nat.ofDigits base.toNat vs.reverse := by
  constructor
  · intro hn
    cases h with
    | dec h =>
      change Numeral ds v at hn
      cases hn with
      | dec hr => exact ⟨_, hr, rfl⟩
      | oct => exact absurd rfl h
      | hex => exact absurd rfl h
      | bin => exact absurd rfl h
    | oct hx hb =>
      change Numeral (0x30 :: ds) v at hn
      cases hn with
      | dec _ h0 => exact absurd rfl h0
      | oct hr => exact ⟨_, hr, rfl⟩
      | hex => exact absurd rfl hx
      | bin => exact absurd rfl hb
    | hex =>
      change Numeral (0x30 :: 0x78 :: ds) v at hn
      cases hn with
      | dec _ h0 => exact absurd rfl h0
      | oct hr => exact absurd (noDigit_x 8) (hr.not_noDigit List.mem_cons_self)
      | hex hr => exact ⟨_, hr, rfl⟩
    | bin =>
      change Numeral (0x30 :: 0x62 :: ds) v at hn
      cases hn with
      | dec _ h0 => exact absurd rfl h0
      | oct hr => exact absurd (noDigit_b (by decide)) (hr.not_noDigit List.mem_cons_self)
      | bin hr => exact ⟨_, hr, rfl⟩
  · rintro ⟨vs, hr, rfl⟩
    cases h with
    | dec h => exact .dec hr h
    | oct => exact .oct hr
    | hex => exact .hex hr
    | bin => exact .bin hr

/-- A prefix has a letter that is no digit of its base, or digits only. -/
theorem Selects.letter_or (h : Selects p base ds) :
    (LetterPrefix (p ++ ds) ∧ ∃ c, p = [0x30, c] ∧ NoDigit base.toNat c ∧ c ≠ 0) ∨
      (¬ LetterPrefix (p ++ ds) ∧ ∀ c ∈ p, ∃ d < base.toNat, IsDigit c d) := by
  cases h with
  | dec h =>
    refine .inr ⟨?_, nofun⟩
    rintro ⟨ds, rfl | rfl⟩
    · exact h rfl
    · exact h rfl
  | oct hx hb =>
    refine .inr ⟨?_, fun c hc => ⟨0, by decide, .inl ?_⟩⟩
    · rintro ⟨ds, h | h⟩
      · exact hx (congrArg List.head? (List.cons.inj h).2)
      · exact hb (congrArg List.head? (List.cons.inj h).2)
    · exact congrArg some (List.mem_singleton.mp hc).symm
  | hex => exact .inl ⟨⟨ds, .inl rfl⟩, _, rfl, noDigit_x _, by decide⟩
  | bin => exact .inl ⟨⟨ds, .inr rfl⟩, _, rfl, noDigit_b (by decide), by decide⟩

/-- The end of a short number. -/
theorem Selects.returns_number (h : Selects p base ds) {vs : List Nat}
    (hr : Reads base.toNat ds vs) (hlen : (p ++ ds).length < 256) (res : BitVec 32) :
    Returns (fun rounds => atoi rounds res (some (p ++ ds))) (0, accumulate base vs 0) := by
  rw [List.length_append] at hlen
  have hwalk := @atoi_walk _ _ [] _ _ 0 hr (Nat.le_of_lt hlen) 1
  rw [List.append_nil, ← List.length_append] at hwalk
  rw [← List.length_append] at hlen
  exact ⟨_, (h.atoi_eq _ res).trans (hwalk.trans (loop_leave (atoiRound_end hlen) 0))⟩

/-- The end at a character that is no digit. -/
theorem Selects.returns_bad {good rest : List UInt8} {c : UInt8} {vs : List Nat}
    (h : Selects p base (good ++ c :: rest)) (hr : Reads base.toNat good vs)
    (hc : NoDigit base.toNat c) (hc0 : c ≠ 0) (hlen : (p ++ good).length < 256)
    (res : BitVec 32) :
    Returns (fun rounds => atoi rounds res (some (p ++ (good ++ c :: rest))))
      (1, accumulate base vs 0) := by
  have hlen' : p.length + good.length ≤ 256 := by
    rw [List.length_append] at hlen
    omega
  have hwalk := @atoi_walk _ _ (c :: rest) _ _ 0 hr hlen' 1
  have hround := @atoiRound_bad _ rest _ _ (accumulate base vs 0) hc hc0 hlen
  rw [List.append_assoc, List.length_append] at hround
  exact ⟨_, (h.atoi_eq _ res).trans (hwalk.trans (loop_leave hround 0))⟩

/-- **Behind 256 characters the index is 0 again.** Where the prefix has a letter, the letter
    ends the second round. -/
theorem Selects.returns_letter {c : UInt8} {vs : List Nat} (h : Selects [0x30, c] base ds)
    (hr : Reads base.toNat (ds.take 254) vs) (hlen : 254 ≤ ds.length)
    (hc : NoDigit base.toNat c) (hc0 : c ≠ 0) :
    ∃ v, ∀ res, Returns (fun rounds => atoi rounds res (some ([0x30, c] ++ ds))) (1, v) := by
  have hb : 0 < base.toNat := by
    cases h with
    | hex => decide
    | bin => decide
  have hzero : Reads base.toNat [0x30] [0] := .cons ⟨hb, .inl rfl⟩ .nil
  have htake : (ds.take 254).length = 254 := List.length_take_of_le hlen
  have hround := @atoi_walk [0x30, c] _ (ds.drop 254) _ _ 0 hr
    (by rw [htake]; exact Nat.le_refl 256) (1 + 1)
  have hwrap : UInt8.ofNat ([0x30, c].length + 254) =
      UInt8.ofNat ([] : List UInt8).length := (by decide : UInt8.ofNat (2 + 254) = UInt8.ofNat 0)
  rw [List.take_append_drop, htake, hwrap] at hround
  have hagain := (@atoi_walk [] _ (c :: ds) _ _ (accumulate base vs 0) hzero
    (by decide) 1).trans (loop_leave (@atoiRound_bad [0x30] _ _ _ _ hc hc0 (by decide)) 0)
  exact ⟨_, fun res => ⟨_, (h.atoi_eq _ res).trans (hround.trans hagain)⟩⟩

/-- Where it has none, the loop is never left. -/
theorem Selects.never_returns (h : Selects p base ds)
    (hd : ∀ c ∈ (p ++ ds).take 256, ∃ d < base.toNat, IsDigit c d)
    (hlen : 256 ≤ (p ++ ds).length) (res : BitVec 32) (r : Nat × BitVec 32) :
    ¬ Returns (fun rounds => atoi rounds res (some (p ++ ds))) r := by
  rintro ⟨rounds, hrounds⟩
  have hloop := (h.atoi_eq rounds res).symm.trans hrounds
  refine loop_never (P := fun _ => True) ?_ (fun _ _ _ _ => trivial) trivial rounds r hloop
  intro s a _
  have hi : s.i.toNat < (p ++ ds).length := Nat.lt_of_lt_of_le s.i.toNat_lt hlen
  obtain ⟨d, hd, hc⟩ := hd ((p ++ ds)[s.i.toNat]) (List.mem_take_iff_getElem.mpr
    ⟨s.i.toNat, Nat.lt_min.mpr ⟨s.i.toNat_lt, hi⟩, rfl⟩)
  have hpre : ((p ++ ds).take s.i.toNat).length = s.i.toNat :=
    List.length_take_of_le (Nat.le_of_lt hi)
  have hround := @atoiRound_digit ((p ++ ds).take s.i.toNat) ((p ++ ds).drop (s.i.toNat + 1)) _ _
    s.res _ hd hc (by rw [hpre]; exact s.i.toNat_lt)
  rw [← List.drop_eq_getElem_cons hi, List.take_append_drop, hpre, UInt8.ofNat_toNat] at hround
  rw [hround]
  exact nofun

theorem Selects.isNumeral_iff (h : Selects p base ds) :
    IsNumeral (p ++ ds) ↔ ∃ vs, Reads base.toNat ds vs := by
  constructor
  · rintro ⟨v, hv⟩
    obtain ⟨vs, hr, -⟩ := h.numeral_iff.mp hv
    exact ⟨vs, hr⟩
  · rintro ⟨vs, hr⟩
    exact ⟨_, h.numeral_iff.mpr ⟨vs, hr, rfl⟩⟩

theorem Selects.take_append (h : Selects p base ds) :
    (p ++ ds).take 256 = p ++ ds.take (256 - p.length) := by
  rw [List.take_append, List.take_of_length_le (Nat.le_trans h.length_le (by decide))]

theorem Selects.isNumeral_take (h : Selects p base ds) : IsNumeral ((p ++ ds).take 256) ↔
    ∃ vs, Reads base.toNat (ds.take (256 - p.length)) vs := by
  have hp := h.length_le
  rw [h.take_append]
  exact (h.take (Nat.sub_pos_of_lt (by omega))).isNumeral_iff

end

/-- **A number shorter than 256 characters** is read. -/
theorem atoi_numeral {str : List UInt8} {v : Nat} (hv : Numeral str v) (hlen : str.length < 256)
    (res : BitVec 32) :
    Returns (fun rounds => atoi rounds res (some str)) (0, BitVec.ofNat 32 v) := by
  obtain ⟨p, base, ds, rfl, h⟩ := exists_selects str
  obtain ⟨vs, hr, rfl⟩ := h.numeral_iff.mp hv
  have hacc : BitVec.ofNat 32 (Nat.ofDigits base.toNat vs.reverse) = accumulate base vs 0 := by
    refine BitVec.eq_of_toNat_eq ?_
    rw [BitVec.toNat_ofNat, accumulate_toNat]
  rw [hacc]
  exact h.returns_number hr hlen res

/-- `atoi` ends in one way only. -/
theorem returns_unique {str : List UInt8} {res : BitVec 32} {r r' : Nat × BitVec 32}
    (h : Returns (fun rounds => atoi rounds res (some str)) r)
    (h' : Returns (fun rounds => atoi rounds res (some str)) r') : r = r' := by
  obtain ⟨p, base, ds, rfl, hsel⟩ := exists_selects str
  obtain ⟨n, hn⟩ := h
  obtain ⟨m, hm⟩ := h'
  exact loop_unique ((hsel.atoi_eq n res).symm.trans hn) ((hsel.atoi_eq m res).symm.trans hm)

/-- Where the first 256 characters are a number, `atoi` is right only if a letter of the prefix
    ends the second round, and the string is none. -/
theorem atoiDecides_long {str : List UInt8} (hlen : 256 ≤ str.length)
    (hn : IsNumeral (str.take 256)) :
    AtoiDecides str ↔ LetterPrefix str ∧ ¬ IsNumeral str := by
  obtain ⟨p, base, ds, rfl, h⟩ := exists_selects str
  obtain ⟨vs, hr⟩ := h.isNumeral_take.mp hn
  rcases h.letter_or with ⟨hp, c, rfl, hc, hc0⟩ | ⟨hp, hp0⟩
  · obtain ⟨v, hv⟩ := h.returns_letter hr (Nat.le_of_add_le_add_right (b := 2) hlen) hc hc0
    constructor
    · rintro ⟨ret, w, hret, hcase⟩
      have hone := (Prod.mk.inj (returns_unique (hret 0) (hv 0))).1
      rcases hcase with ⟨hzero, -⟩ | ⟨-, hno⟩
      · omega
      · exact ⟨hp, hno⟩
    · rintro ⟨-, hno⟩
      exact ⟨1, v, hv, .inr ⟨rfl, hno⟩⟩
  · refine iff_of_false ?_ fun hl => hp hl.1
    rintro ⟨ret, v, hret, -⟩
    refine h.never_returns ?_ hlen 0 _ (hret 0)
    intro c hc
    rw [h.take_append] at hc
    rcases List.mem_append.mp hc with hc | hc
    · exact hp0 c hc
    · exact hr.isDigit hc

/-- **When `atoi` decides the grammar**: always on strings shorter than 256 characters. On longer
    ones the index wraps, and it does only if one of the first 256 characters is wrong already,
    or if 0x or 0b starts a string that is no number. -/
theorem atoi_decides_iff (str : List UInt8) (h0 : 0 ∉ str) : AtoiDecides str ↔
    str.length < 256 ∨ ¬ IsNumeral (str.take 256) ∨ (LetterPrefix str ∧ ¬ IsNumeral str) := by
  obtain ⟨p, base, ds, rfl, h⟩ := exists_selects str
  by_cases hn : IsNumeral ((p ++ ds).take 256)
  · by_cases hlen : (p ++ ds).length < 256
    · rw [List.take_of_length_le (Nat.le_of_lt hlen)] at hn
      obtain ⟨v, hv⟩ := hn
      refine iff_of_true ⟨0, _, atoi_numeral hv hlen, .inl ⟨rfl, v, hv, ?_⟩⟩ (.inl hlen)
      exact BitVec.toNat_ofNat v 32
    · rw [or_iff_right hlen, or_iff_right (not_not_intro hn)]
      exact atoiDecides_long (Nat.le_of_not_lt hlen) hn
  · refine iff_of_true ?_ (.inr (.inl hn))
    rcases reads_split base.toNat ds with ⟨vs, hr⟩ | ⟨good, vs, c, rest, rfl, hr, hc⟩
    · exact absurd (h.isNumeral_take.mpr ⟨_, List.forall₂_take _ hr⟩) hn
    · have hlen : (p ++ good).length < 256 := by
        rw [List.length_append]
        refine Nat.lt_of_not_le fun hle => hn (h.isNumeral_take.mpr ⟨vs.take (256 - p.length), ?_⟩)
        rw [List.take_append_of_le_length (by omega)]
        exact List.forall₂_take _ hr
      have hc0 : c ≠ 0 := by
        rintro rfl
        exact h0 (List.mem_append_right _ (List.mem_append_right _ List.mem_cons_self))
      refine ⟨1, _, h.returns_bad hr hc hc0 hlen, .inr ⟨rfl, fun hno => ?_⟩⟩
      obtain ⟨ws, hws⟩ := h.isNumeral_iff.mp hno
      exact hws.not_noDigit (List.mem_append_right _ List.mem_cons_self) hc

/-- 0x1F is short. -/
theorem atoi_decides_short : AtoiDecides [0x30, 0x78, 0x31, 0x46] :=
  (atoi_decides_iff [0x30, 0x78, 0x31, 0x46] (by decide)).mpr (.inl (by decide))

/-- On 256 ones `atoi` never ends. -/
theorem atoi_ones : ¬ AtoiDecides (List.replicate 256 0x31) := by
  have hreads : ∀ n, Reads 10 (List.replicate n 0x31) (List.replicate n 1) := by
    intro n
    induction n with
    | zero => exact .nil
    | succ n ih => exact .cons ⟨by decide, .inl rfl⟩ ih
  have hlen : (List.replicate 256 (0x31 : UInt8)).length = 256 := List.length_replicate
  rw [atoiDecides_long (Nat.le_of_eq hlen.symm)]
  · rintro ⟨⟨ds, h⟩, -⟩
    have hmem : (0x30 : UInt8) ∈ List.replicate 256 0x31 := by
      rcases h with h | h
      · exact h ▸ List.mem_cons_self
      · exact h ▸ List.mem_cons_self
    exact absurd (List.eq_of_mem_replicate hmem) (by decide)
  · rw [List.take_of_length_le (Nat.le_of_eq hlen)]
    exact ⟨_, .dec (hreads 256) (by decide)⟩

/-- A round that goes on has read a character of the string. -/
theorem atoiRound_next {str : List UInt8} {base : UInt8} {s s' : Atoi}
    (h : atoiRound str base s = .next s') : s.i.toNat < str.length ∧ s'.i = s.i + 1 := by
  unfold atoiRound at h
  split at h
  · nomatch h
  · rename_i c hc
    split at h
    · nomatch h
    · rename_i hc0
      have hlt : s.i.toNat < str.length := by
        refine Nat.lt_of_not_le fun hle => hc0 ?_
        rw [charAt, List.getElem?_append_right hle] at hc
        exact List.mem_singleton.mp (List.mem_of_getElem? hc)
      split at h
      · nomatch h
      · split at h
        · nomatch h
        · exact ⟨hlt, (Round.next.inj h) ▸ rfl⟩

theorem atoiRound_safe {str : List UInt8} {base : UInt8} {s : Atoi}
    (h : s.i.toNat ≤ str.length) : atoiRound str base s ≠ .fault := by
  have hlt : s.i.toNat < (str ++ [0]).length := by
    rw [List.length_append, List.length_singleton]
    exact Nat.lt_succ_of_le h
  unfold atoiRound charAt
  rw [List.getElem?_eq_getElem hlt]
  dsimp only
  split
  · exact nofun
  · split
    · exact nofun
    · split
      · exact nofun
      · exact nofun

/-- **The terminator is the last byte read**, also where the loop is never left. -/
theorem atoi_safe (str : List UInt8) (rounds : Nat) (res : BitVec 32) :
    atoi rounds res (some str) ≠ .fault := by
  obtain ⟨p, base, ds, rfl, h⟩ := exists_selects str
  have hp := h.length_le
  rw [h.atoi_eq]
  refine loop_safe (P := fun s => s.i.toNat ≤ (p ++ ds).length) ?_ ?_ ?_ rounds
  · exact fun s hs => atoiRound_safe hs
  · intro s s' _ hnext
    obtain ⟨hlt, hi⟩ := atoiRound_next hnext
    rw [hi, UInt8.toNat_add]
    exact Nat.le_trans (Nat.mod_le _ _) hlt
  · rw [UInt8.toNat_ofNat', List.length_append]
    exact Nat.le_trans (Nat.mod_le _ _) (Nat.le_add_right _ _)

/-! ## 5. What `itoa` wrote -/

/-- The string at the start of a buffer. -/
def contents (buffer : List UInt8) : List UInt8 := buffer.takeWhile (· ≠ 0)

/-- The bases with their prefixes. -/
def prefixes : List (UInt8 × List UInt8) :=
  [(2, [0x30, 0x62]), (8, [0x30]), (10, []), (16, [0x30, 0x78])]

theorem contents_append {l : List UInt8} (h0 : 0 ∉ l) (rest : List UInt8) :
    contents (l ++ 0 :: rest) = l := by
  unfold contents
  rw [List.takeWhile_append_of_pos, List.takeWhile_cons_of_neg, List.append_nil]
  · decide
  · intro c hc
    exact decide_eq_true fun h => h0 (h ▸ hc)

/-- A numeral is digits of its number. -/
theorem reads_numeral {b : Nat} (hb : 1 < b) (hb' : b ≤ 16) (n : Nat) :
    ∃ vs, Reads b (numeral b n) vs ∧ Nat.ofDigits b vs.reverse = n := by
  unfold numeral
  split
  · rename_i hn
    subst hn
    exact ⟨[0], .cons ⟨by omega, .inl rfl⟩ .nil, Nat.ofDigits_singleton⟩
  · refine ⟨(Nat.digits b n).reverse, ?_, ?_⟩
    · refine List.forall₂_reverse_iff.mpr (List.forall₂_map_left_iff.mpr
        (List.forall₂_same.mpr fun d hd => ?_))
      have hlt := Nat.digits_lt_base hb hd
      exact ⟨hlt, .inr (digitChar_get d (Nat.lt_of_lt_of_le hlt hb')).1⟩
    · rw [List.reverse_reverse, Nat.ofDigits_digits]

theorem digitChar_zero : ∀ d < 16, digitChar d = 0x30 → d = 0 := by decide

/-- A decimal numeral does not start with 0, unless it is 0. -/
theorem numeral_head {n : Nat} (hn : n ≠ 0) : (numeral 10 n).head? ≠ some 0x30 := by
  intro h
  have hne := Nat.digits_ne_nil_iff_ne_zero (b := 10).mpr hn
  rw [numeral, if_neg hn, List.head?_reverse, List.getLast?_map,
    List.getLast?_eq_some_getLast hne] at h
  have hlt := Nat.digits_lt_base (by decide) (List.getLast_mem hne)
  exact Nat.getLast_digit_ne_zero 10 hn
    (digitChar_zero _ (Nat.lt_trans hlt (by decide)) (Option.some.inj h))

/-- **With its prefix a numeral is a number.** -/
theorem numeral_prefixed {base : UInt8} {p : List UInt8} (h : (base, p) ∈ prefixes) (n : Nat) :
    Numeral (p ++ numeral base.toNat n) n := by
  simp only [prefixes, List.mem_cons, Prod.mk.injEq, List.not_mem_nil, or_false] at h
  rcases h with ⟨rfl, rfl⟩ | ⟨rfl, rfl⟩ | ⟨rfl, rfl⟩ | ⟨rfl, rfl⟩
  · obtain ⟨vs, hr, hv⟩ := reads_numeral (b := 2) (by decide) (by decide) n
    have hnum := Numeral.bin hr
    rw [hv] at hnum
    exact hnum
  · obtain ⟨vs, hr, hv⟩ := reads_numeral (b := 8) (by decide) (by decide) n
    have hnum := Numeral.oct hr
    rw [hv] at hnum
    exact hnum
  · by_cases hn : n = 0
    · subst hn
      exact .oct .nil
    · obtain ⟨vs, hr, hv⟩ := reads_numeral (b := 10) (by decide) (by decide) n
      have hnum := Numeral.dec hr (numeral_head hn)
      rw [hv] at hnum
      exact hnum
  · obtain ⟨vs, hr, hv⟩ := reads_numeral (b := 16) (by decide) (by decide) n
    have hnum := Numeral.hex hr
    rw [hv] at hnum
    exact hnum

/-- **What `itoa` wrote into a zeroed buffer is what `atoi` reads.** -/
theorem atoi_itoa (n : BitVec 32) {base : UInt8} {p : List UInt8} (h : (base, p) ∈ prefixes)
    {k : Nat} (hk : 33 ≤ k) :
    ∃ buffer, Returns (fun rounds => itoa rounds n base (some (List.replicate k 0))) (0, buffer) ∧
      ∀ res, Returns (fun rounds => atoi rounds res (some (p ++ contents buffer))) (0, n) := by
  have hbase : ∀ q ∈ prefixes, 2 ≤ q.1 ∧ q.1 ≤ 16 ∧ q.2.length ≤ 2 := by decide
  obtain ⟨hb, hb', hp⟩ := hbase _ h
  have hb2 : 2 ≤ base.toNat := UInt8.le_iff_toNat_le.mp hb
  have hb16 : base.toNat ≤ 16 := UInt8.le_iff_toNat_le.mp hb'
  obtain ⟨rest, hitoa⟩ := itoa_zeroed hb hb' hk n
  refine ⟨_, hitoa, fun res => ?_⟩
  rw [contents_append (numeral_nonzero hb2 hb16 n)]
  have hlen := numeral_length hb2 n
  have hatoi := atoi_numeral (numeral_prefixed h n.toNat)
    (by rw [List.length_append]; dsimp only at hp; omega) res
  rwa [BitVec.ofNat_toNat, BitVec.setWidth_eq] at hatoi

/-- "0xbeef". -/
theorem atoi_itoa_hex :
    ∃ buffer,
      Returns (fun rounds => itoa rounds 0xBEEF 16 (some (List.replicate 33 0))) (0, buffer) ∧
      ∀ res, Returns (fun rounds => atoi rounds res (some ([0x30, 0x78] ++ contents buffer)))
        (0, 0xBEEF) :=
  atoi_itoa 0xBEEF (by decide) (by decide)

end LsePc.Bios
