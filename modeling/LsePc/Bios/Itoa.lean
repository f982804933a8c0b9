/-
  File:      LsePc/Bios/Itoa.lean
  Subject:   `itoa` and `reverse` of sw/bios/src/string.c.

  * the functions on the bytes of a buffer, with the byte-wide index. An access outside of it
    and a division by zero are a `fault`;
  * `numeral`: the digits of a number;
  * **result** (`itoa_right_iff`): when `itoa` leaves the number in the buffer.
-/
import LsePc.Lib.Loop
import Mathlib.Data.Nat.Digits.Lemmas

namespace LsePc.Bios

open LsePc.Lib

/-! ## 1. The source -/

/-- "0123456789ABCDEF". -/
def upperDigits : List UInt8 :=
  [0x30, 0x31, 0x32, 0x33, 0x34, 0x35, 0x36, 0x37, 0x38, 0x39, 0x41, 0x42, 0x43, 0x44, 0x45, 0x46]

/-- `buffer[i] = c`. -/
def store (buffer : List UInt8) (i : Nat) (c : UInt8) : Outcome (List UInt8) :=
  if i < buffer.length then .done (buffer.set i c) else .fault

def strlen : List UInt8 → Outcome Nat
  | [] => .fault
  | c :: str => if c = 0 then .done 0 else strlen str >>= fun n => .done (n + 1)

/-- The state of the loop of `reverse`. -/
structure Reversing where
  i : Int
  j : Int
  str : List UInt8

def reverseRound (s : Reversing) : Round Reversing (List UInt8) :=
  if s.i < s.j then
    match s.str[s.i.toNat]?, s.str[s.j.toNat]? with
    | some tmp, some c =>
      .next { i := s.i + 1, j := s.j - 1, str := (s.str.set s.i.toNat c).set s.j.toNat tmp }
    | _, _ => .fault
  else .leave s.str

def reverse (rounds : Nat) (str : List UInt8) : Outcome (List UInt8) := do
  let len ← strlen str
  runLoop reverseRound rounds { i := 0, j := (len : Int) - 1, str := str }

/-- The state of the loop of `itoa`. -/
structure Itoa where
  n : BitVec 32
  i : UInt8
  buffer : List UInt8

def itoaRound (base : UInt8) (s : Itoa) : Round Itoa Itoa :=
  if s.n = 0 then .leave s
  else if base = 0 then .fault
  else
    match upperDigits[s.n.toNat % base.toNat]? with
    | none => .fault
    | some c =>
      match store s.buffer s.i.toNat c with
      | .done buffer =>
        .next { n := s.n / BitVec.ofNat 32 base.toNat, i := s.i + 1, buffer := buffer }
      | _ => .fault

/-- What is returned, with the buffer. A null buffer has no bytes. -/
def itoa (rounds : Nat) (n : BitVec 32) (base : UInt8) :
    Option (List UInt8) → Outcome (Nat × List UInt8)
  | none => .done (1, [])
  | some buffer =>
    if 16 < base then .done (1, buffer)
    else if n = 0 then do
      let buffer ← store buffer 0 0x30
      .done (0, buffer)
    else do
      let s ← runLoop (itoaRound base) rounds { n := n, i := 0, buffer := buffer }
      let buffer ← store s.buffer s.i.toNat 0
      let buffer ← reverse rounds buffer
      .done (0, buffer)

/-! ## 2. `reverse` -/

variable {buffer pre mid post rest : List UInt8} {c : UInt8}

theorem strlen_eq (h0 : 0 ∉ mid) : strlen (mid ++ 0 :: rest) = .done mid.length := by
  induction mid with
  | nil => rfl
  | cons c mid ih =>
    obtain ⟨hc, hmid⟩ := not_or.mp (List.mem_cons.not.mp h0)
    rw [List.cons_append, strlen, if_neg (Ne.symm hc)]
    exact Outcome.bind_done (ih hmid) _

/-- The first byte behind `pre`, read and written. -/
theorem get_length : (pre ++ c :: rest)[pre.length]? = some c := by
  rw [List.getElem?_append_right (Nat.le_refl _), Nat.sub_self, List.getElem?_cons_zero]

theorem set_length (c' : UInt8) : (pre ++ c :: rest).set pre.length c' = pre ++ c' :: rest := by
  rw [List.set_append_right _ _ (Nat.le_refl _), Nat.sub_self, List.set_cons_zero]

/-- A round exchanges the two ends of what is left. -/
theorem reverseRound_swap (a b : UInt8) :
    reverseRound ⟨pre.length, pre.length + (mid.length + 1), pre ++ a :: (mid ++ b :: post)⟩ =
      .next ⟨pre.length + 1, pre.length + mid.length, pre ++ b :: (mid ++ a :: post)⟩ := by
  have hlast : ∀ c : UInt8, pre.length + (mid.length + 1) = (pre ++ c :: mid).length :=
    fun c => by rw [List.length_append, List.length_cons]
  have hsplit : ∀ c c' : UInt8, pre ++ c :: (mid ++ c' :: post) = (pre ++ c :: mid) ++ c' :: post :=
    fun c c' => by rw [List.append_assoc, List.cons_append]
  have hj : ((pre.length : Int) + ((mid.length : Int) + 1)).toNat =
      pre.length + (mid.length + 1) := by omega
  unfold reverseRound
  dsimp only
  rw [if_pos (by omega)]
  rw [hj, Int.toNat_natCast, get_length]
  conv_lhs => rw [hlast a, hsplit a b, get_length]
  dsimp only
  rw [← hsplit, ← hlast, set_length, hlast b, hsplit b b, set_length, ← hsplit]
  congr 2
  omega

theorem reverse_stop {i j : Int} {str : List UInt8} (h : ¬ i < j) :
    runLoop reverseRound 1 ⟨i, j, str⟩ = .done str := by
  refine loop_leave ?_ 0
  exact if_neg h

/-- What is left is reversed in place. -/
theorem reverse_loop : ∀ mid pre post : List UInt8, ∃ rounds, runLoop reverseRound rounds
    ⟨pre.length, pre.length + (mid.length - 1), pre ++ (mid ++ post)⟩ =
      .done (pre ++ (mid.reverse ++ post)) := by
  intro mid
  induction mid using List.bidirectionalRec with
  | nil =>
    intro pre post
    exact ⟨1, reverse_stop (by simp)⟩
  | singleton a =>
    intro pre post
    exact ⟨1, reverse_stop (by simp)⟩
  | cons_append a mid b ih =>
    intro pre post
    obtain ⟨rounds, h⟩ := ih (pre ++ [b]) (a :: post)
    have hlen : ((a :: (mid ++ [b])).length : Int) - 1 = mid.length + 1 := by simp
    have hj : (pre.length : Int) + 1 + (mid.length - 1) = pre.length + mid.length := by omega
    have hrev : (a :: (mid ++ [b])).reverse ++ post = b :: (mid.reverse ++ a :: post) := by simp
    rw [List.length_append, List.append_assoc, List.append_assoc] at h
    refine ⟨rounds + 1, ?_⟩
    rw [hlen, hrev, List.cons_append, List.append_assoc]
    refine (loop_next (reverseRound_swap a b) rounds).trans ?_
    rw [← hj]
    exact h

/-- `reverse` of the string at the start of a buffer. -/
theorem reverse_returns (h0 : 0 ∉ mid) : ∃ rounds, ∀ n ≥ rounds,
    reverse n (mid ++ 0 :: rest) = .done (mid.reverse ++ 0 :: rest) := by
  obtain ⟨rounds, h⟩ := reverse_loop mid [] (0 :: rest)
  refine ⟨rounds, fun n hn => ?_⟩
  have hloop := loop_mono h hn
  rw [List.length_nil, Int.natCast_zero, Int.zero_add] at hloop
  exact (Outcome.bind_done (strlen_eq h0) _).trans hloop

/-! ## 3. The digits -/

/-- A digit as a character. -/
def digitChar (d : Nat) : UInt8 := upperDigits.getD d 0

/-- The digits of `n`, the highest first and without leading zeros. -/
def numeral (base n : Nat) : List UInt8 :=
  if n = 0 then [0x30] else ((Nat.digits base n).map digitChar).reverse

/-- `itoa` ends, returns 0 and leaves the number and its NUL at the start of the buffer. -/
def ItoaRight (n : BitVec 32) (base : UInt8) (buffer : List UInt8) : Prop :=
  ∃ buffer', Returns (fun rounds => itoa rounds n base (some buffer)) (0, buffer') ∧
    numeral base.toNat n.toNat ++ [0] <+: buffer'

theorem digitChar_get : ∀ d < 16, upperDigits[d]? = some (digitChar d) ∧ digitChar d ≠ 0 := by
  decide

theorem store_length (c' : UInt8) :
    store (pre ++ c :: rest) pre.length c' = .done (pre ++ c' :: rest) := by
  have hlt : pre.length < (pre ++ c :: rest).length := by
    rw [List.length_append, List.length_cons]
    omega
  rw [store, if_pos hlt, set_length]

section
variable {base : UInt8} {n : BitVec 32}

/-- A round writes the lowest digit. -/
theorem itoaRound_digit (hn : n ≠ 0) (hb : 0 < base.toNat) (hb' : base.toNat ≤ 16)
    (hpre : pre.length < 256) :
    itoaRound base ⟨n, UInt8.ofNat pre.length, pre ++ c :: rest⟩ =
      .next ⟨n / BitVec.ofNat 32 base.toNat, UInt8.ofNat (pre.length + 1),
        pre ++ digitChar (n.toNat % base.toNat) :: rest⟩ := by
  have hbase : base ≠ 0 := by
    rintro rfl
    exact Nat.lt_irrefl 0 hb
  have hd : n.toNat % base.toNat < 16 := Nat.lt_of_lt_of_le (Nat.mod_lt _ hb) hb'
  unfold itoaRound
  rw [if_neg hn, if_neg hbase]
  dsimp only
  rw [(digitChar_get _ hd).1]
  dsimp only
  rw [UInt8.toNat_ofNat', Nat.mod_eq_of_lt hpre, store_length, UInt8.ofNat_add]
  rfl

theorem toNat_div (n : BitVec 32) (base : UInt8) :
    (n / BitVec.ofNat 32 base.toNat).toNat = n.toNat / base.toNat := by
  have hlt := base.toNat_lt
  rw [BitVec.toNat_udiv, BitVec.toNat_ofNat, Nat.mod_eq_of_lt (by omega)]

/-- **The loop over the digits**, the lowest first. -/
theorem itoa_digits (hb : 2 ≤ base.toNat) (hb' : base.toNat ≤ 16) : ∀ (k : Nat) (n : BitVec 32)
    (pre rest : List UInt8), (Nat.digits base.toNat n.toNat).length = k → k < rest.length →
    pre.length + k < 256 →
    runLoop (itoaRound base) (k + 1) ⟨n, UInt8.ofNat pre.length, pre ++ rest⟩ =
      .done ⟨0, UInt8.ofNat (pre.length + k),
        pre ++ ((Nat.digits base.toNat n.toNat).map digitChar ++ rest.drop k)⟩ := by
  intro k
  induction k with
  | zero =>
    intro n pre rest hk _ _
    have hnil := List.eq_nil_of_length_eq_zero hk
    have hn : n = 0 := BitVec.eq_of_toNat_eq (Nat.digits_eq_nil_iff_eq_zero.mp hnil)
    subst hn
    rw [hnil]
    refine loop_leave ?_ 0
    exact if_pos rfl
  | succ k ih =>
    intro n pre rest hk hrest hpre
    have hn : n ≠ 0 := by
      rintro rfl
      have hzero : (0 : BitVec 32).toNat = 0 := rfl
      rw [hzero, Nat.digits_zero] at hk
      nomatch hk
    have hpos : 0 < n.toNat := Nat.pos_of_ne_zero fun h => hn (BitVec.eq_of_toNat_eq h)
    have hdigits := Nat.digits_def' hb hpos
    rw [hdigits, List.length_cons] at hk
    obtain ⟨c, rest, rfl⟩ := List.exists_cons_of_length_pos (Nat.zero_lt_of_lt hrest)
    have hround := @itoaRound_digit pre rest c _ _ hn (by omega) hb'
      (Nat.lt_of_le_of_lt (Nat.le_add_right _ _) hpre)
    have ih := ih (n / BitVec.ofNat 32 base.toNat)
      (pre ++ [digitChar (n.toNat % base.toNat)]) rest
      (by rw [toNat_div]; exact Nat.succ.inj hk) (Nat.lt_of_succ_lt_succ hrest)
      (by rw [List.length_append, List.length_singleton]; omega)
    rw [toNat_div, List.length_append, List.length_singleton, List.append_assoc,
      List.append_assoc] at ih
    rw [loop_next hround, hdigits, ← Nat.add_assoc, Nat.add_right_comm]
    exact ih

theorem digits_length (hb : 2 ≤ base.toNat) (n : BitVec 32) :
    (Nat.digits base.toNat n.toNat).length ≤ 32 := by
  refine (Nat.digits_length_le_iff hb _).mpr ?_
  calc n.toNat < 2 ^ 32 := n.isLt
    _ ≤ base.toNat ^ 32 := Nat.pow_le_pow_left hb 32

theorem digits_nonzero (hb : 2 ≤ base.toNat) (hb' : base.toNat ≤ 16) (n : BitVec 32) :
    0 ∉ (Nat.digits base.toNat n.toNat).map digitChar := by
  intro h
  obtain ⟨d, hd, h0⟩ := List.mem_map.mp h
  have hlt := Nat.digits_lt_base hb hd
  exact (digitChar_get d (by omega)).2 h0

/-- `itoa` in a base it accepts. -/
theorem itoa_eq (hb : base ≤ 16) (hn : n ≠ 0) (rounds : Nat) (buffer : List UInt8) :
    itoa rounds n base (some buffer) =
      (runLoop (itoaRound base) rounds { n := n, i := 0, buffer := buffer } >>= fun s =>
        store s.buffer s.i.toNat 0 >>= fun buffer =>
          reverse rounds buffer >>= fun buffer => .done (0, buffer)) := by
  have hle : ¬ 16 < base := fun h => absurd hb (UInt8.not_le.mpr h)
  unfold itoa
  dsimp only
  rw [if_neg hle, if_neg hn]

theorem itoa_zero (hb : base ≤ 16) (rounds : Nat) :
    itoa rounds 0 base (some (c :: rest)) = .done (0, 0x30 :: rest) := by
  have hle : ¬ 16 < base := fun h => absurd hb (UInt8.not_le.mpr h)
  unfold itoa
  dsimp only
  rw [if_neg hle, if_pos rfl]
  exact Outcome.bind_done (@store_length [] _ _ 0x30) _

/-- `itoa` of a number other than 0, in a base. -/
theorem itoa_returns (hn : n ≠ 0) (hb : 2 ≤ base) (hb' : base ≤ 16)
    (hroom : (numeral base.toNat n.toNat).length < buffer.length) :
    ∃ rest, Returns (fun rounds => itoa rounds n base (some buffer))
      (0, numeral base.toNat n.toNat ++ 0 :: rest) := by
  have hnum : numeral base.toNat n.toNat =
      ((Nat.digits base.toNat n.toNat).map digitChar).reverse :=
    if_neg fun h => hn (BitVec.eq_of_toNat_eq h)
  have hb2 : 2 ≤ base.toNat := UInt8.le_iff_toNat_le.mp hb
  have hb16 : base.toNat ≤ 16 := UInt8.le_iff_toNat_le.mp hb'
  have hk := digits_length hb2 n
  rw [hnum, List.length_reverse, List.length_map] at hroom
  rw [hnum]
  generalize hds : (Nat.digits base.toNat n.toNat).map digitChar = ds
  have hlen : (Nat.digits base.toNat n.toNat).length = ds.length := by
    rw [← hds, List.length_map]
  have h0 : 0 ∉ ds := hds ▸ digits_nonzero hb2 hb16 n
  rw [hlen] at hroom hk
  obtain ⟨rounds, hrev⟩ := @reverse_returns _ (buffer.drop (ds.length + 1)) h0
  have hloop := itoa_digits hb2 hb16 ds.length n [] buffer hlen hroom
    (by rw [List.length_nil]; omega)
  rw [hds, List.drop_eq_getElem_cons hroom, List.length_nil, Nat.zero_add] at hloop
  have hlast : (UInt8.ofNat ds.length).toNat = ds.length := by
    rw [UInt8.toNat_ofNat']
    omega
  refine ⟨buffer.drop (ds.length + 1), max (ds.length + 1) rounds, ?_⟩
  refine (itoa_eq hb' hn _ buffer).trans ?_
  refine (Outcome.bind_done (loop_mono hloop (Nat.le_max_left _ _)) _).trans ?_
  dsimp only
  rw [hlast, List.nil_append, Outcome.bind_done (store_length 0),
    Outcome.bind_done (hrev _ (Nat.le_max_right _ _))]

/-- Any round before the number is 0. -/
theorem itoaRound_cases {s : Itoa} (hs : s.n ≠ 0) : itoaRound base s = .fault ∨
    base ≠ 0 ∧ ∃ i buffer,
      itoaRound base s = .next ⟨s.n / BitVec.ofNat 32 base.toNat, i, buffer⟩ := by
  unfold itoaRound
  rw [if_neg hs]
  split
  · exact .inl rfl
  · rename_i hb
    split
    · exact .inl rfl
    · split
      · exact .inr ⟨hb, _, _, rfl⟩
      · exact .inl rfl

/-- Without a base there is no way out of the loop. -/
theorem itoa_never (hn : n ≠ 0) (hb : base < 2) (r : Nat × List UInt8) :
    ¬ Returns (fun rounds => itoa rounds n base (some buffer)) r := by
  rintro ⟨rounds, h⟩
  have hb16 : base ≤ 16 := UInt8.le_of_lt (UInt8.lt_trans hb (by decide))
  obtain ⟨s, hloop, -⟩ := Outcome.of_bind_done ((itoa_eq hb16 hn rounds buffer).symm.trans h)
  refine loop_never (P := fun s => s.n ≠ 0) ?_ ?_ hn rounds s hloop
  · intro s a hs hround
    rcases @itoaRound_cases base _ hs with h | ⟨-, i, buffer, h⟩
    · nomatch h.symm.trans hround
    · nomatch h.symm.trans hround
  · intro s s' hs hround
    rcases @itoaRound_cases base _ hs with h | ⟨hb0, i, buffer, h⟩
    · nomatch h.symm.trans hround
    · obtain rfl := Round.next.inj (h.symm.trans hround)
      have hone : base.toNat = 1 := by
        have hlt : base.toNat < 2 := UInt8.lt_iff_toNat_lt.mp hb
        have hne : base.toNat ≠ 0 := fun h => hb0 (UInt8.toNat_inj.mp h)
        omega
      rw [hone]
      exact fun h => hs ((BitVec.udiv_one (x := s.n)).symm.trans h)

/-- For 0 no NUL is written. -/
theorem itoaRight_zero {c' : UInt8} (hb : base ≤ 16) :
    ItoaRight 0 base (c :: c' :: rest) ↔ c' = 0 := by
  constructor
  · rintro ⟨buffer', ⟨rounds, h⟩, hpre⟩
    obtain ⟨-, rfl⟩ := Prod.mk.inj (Outcome.done.inj ((itoa_zero hb rounds).symm.trans h))
    obtain ⟨-, hpre⟩ := List.cons_prefix_cons.mp hpre
    exact (List.cons_prefix_cons.mp hpre).1.symm
  · rintro rfl
    exact ⟨_, ⟨0, itoa_zero hb 0⟩, rest, rfl⟩

theorem numeral_length (hb : 2 ≤ base.toNat) (n : BitVec 32) :
    (numeral base.toNat n.toNat).length ≤ 32 := by
  unfold numeral
  split
  · decide
  · rw [List.length_reverse, List.length_map]
    exact digits_length hb n

theorem numeral_nonzero (hb : 2 ≤ base.toNat) (hb' : base.toNat ≤ 16) (n : BitVec 32) :
    0 ∉ numeral base.toNat n.toNat := by
  unfold numeral
  split
  · decide
  · exact fun h => digits_nonzero hb hb' n (List.mem_reverse.mp h)

/-- `itoa` on a zeroed buffer. -/
theorem itoa_zeroed (hb : 2 ≤ base) (hb' : base ≤ 16) {k : Nat} (hk : 33 ≤ k) (n : BitVec 32) :
    ∃ rest, Returns (fun rounds => itoa rounds n base (some (List.replicate k 0)))
      (0, numeral base.toNat n.toNat ++ 0 :: rest) := by
  by_cases hn : n = 0
  · subst hn
    obtain ⟨k, rfl⟩ := Nat.exists_eq_add_of_le' (Nat.le_trans (by decide : 2 ≤ 33) hk)
    exact ⟨List.replicate k 0, 0, itoa_zero hb' 0⟩
  · refine itoa_returns hn hb hb' ?_
    have hlen := numeral_length (UInt8.le_iff_toNat_le.mp hb) n
    rw [List.length_replicate]
    omega

/-- **When `itoa` is right**: for 0 in a buffer that has the NUL behind the digit already, for
    any other number in the bases from 2 on. -/
theorem itoa_right_iff (n : BitVec 32) (base : UInt8) (buffer : List UInt8) (hb : base ≤ 16)
    (hroom : (numeral base.toNat n.toNat).length < buffer.length) : ItoaRight n base buffer ↔
      (n = 0 ∧ buffer[1]? = some 0) ∨ (n ≠ 0 ∧ 2 ≤ base) := by
  by_cases hn : n = 0
  · subst hn
    rw [or_iff_left fun h => h.1 rfl, and_iff_right rfl]
    obtain ⟨c, c', rest, rfl⟩ : ∃ c c' rest, buffer = c :: c' :: rest := by
      match buffer, hroom with
      | c :: c' :: rest, _ => exact ⟨c, c', rest, rfl⟩
    exact (itoaRight_zero hb).trans (Option.some.injEq c' 0).symm.to_iff
  · rw [or_iff_right fun h => hn h.1, and_iff_right hn]
    constructor
    · rintro ⟨buffer', h, -⟩
      exact UInt8.not_lt.mp fun hlt => itoa_never hn hlt _ h
    · intro h2
      obtain ⟨rest, h⟩ := itoa_returns hn h2 hb hroom
      refine ⟨_, h, rest, ?_⟩
      rw [List.append_assoc]
      rfl

/-- 255 in base 16, in a buffer full of ones. -/
theorem itoa_right_ff : ItoaRight 255 16 (List.replicate 33 1) :=
  (itoa_right_iff 255 16 (List.replicate 33 1) (by decide) (by decide)).mpr
    (.inr ⟨by decide, by decide⟩)

/-- 0 in such a buffer, and 1 in the bases 0 and 1. -/
theorem itoa_wrong : ¬ ItoaRight 0 10 (List.replicate 33 1) ∧
    ¬ ItoaRight 1 0 (List.replicate 33 0) ∧ ¬ ItoaRight 1 1 (List.replicate 33 0) := by
  refine ⟨?_, ?_, ?_⟩
  · exact fun h => absurd ((itoaRight_zero (by decide)).mp h) (by decide)
  · rintro ⟨buffer', h, -⟩
    exact itoa_never (by decide) (by decide) _ h
  · rintro ⟨buffer', h, -⟩
    exact itoa_never (by decide) (by decide) _ h

end

end LsePc.Bios
