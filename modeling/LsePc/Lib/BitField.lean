/-
  File:      LsePc/Lib/BitField.lean
  Subject:   Structures of bit-fields, packed, in a memory of bytes.

  A compiler puts the fields one behind the other, the first one at the lowest bit, and an
  assignment to one keeps the bits around it. This file names nothing of any particular
  program.

  * `bit`, `loadBits`, `storeBits`: the bits of the memory, numbered from the lowest bit of the
    byte 0 on;
  * `Decl`, `Decl.place`: a declaration, and the first bit and the width of a field;
  * `Decl.get`, `Decl.set`: a field of the structure at an address;
  * what is read behind an assignment: the same field (`get_set_self`), another one
    (`get_set_ne`), a bit of another structure (`bit_set_apart`).
-/
import Mathlib.Data.BitVec

namespace LsePc.Lib

/-- A memory of bytes. -/
abbrev Ram := Nat → BitVec 8

/-! ## 1. Bits -/

def bit (mem : Ram) (i : Nat) : Bool := (mem (i / 8)).getLsbD (i % 8)

/-- The `len` bits from `start` on, as a number. -/
def loadBits (mem : Ram) (start len : Nat) : Nat :=
  Nat.ofBits fun k : Fin len => bit mem (start + k)

def storeBits (mem : Ram) (start len v : Nat) : Ram := fun a =>
  BitVec.ofNat 8 (Nat.ofBits fun k : Fin 8 =>
    if start ≤ 8 * a + k ∧ 8 * a + k < start + len then v.testBit (8 * a + k - start)
    else bit mem (8 * a + k))

/-- The little-endian word at an address. -/
def word32 (mem : Ram) (a : Nat) : BitVec 32 :=
  mem (a + 3) ++ mem (a + 2) ++ mem (a + 1) ++ mem a

section
variable {mem mem' : Ram} {start len start' len' v i : Nat}

theorem bit_storeBits : bit (storeBits mem start len v) i =
    if start ≤ i ∧ i < start + len then v.testBit (i - start) else bit mem i := by
  have hi : 8 * (i / 8) + i % 8 = i := Nat.div_add_mod i 8
  have hlt : i % 8 < 8 := Nat.mod_lt i (by decide)
  conv_lhs => unfold bit storeBits
  rw [BitVec.getLsbD_ofNat, decide_eq_true hlt, Bool.true_and, Nat.testBit_ofBits_lt _ _ hlt]
  dsimp only
  rw [hi]

theorem testBit_loadBits (hi : i < len) :
    (loadBits mem start len).testBit i = bit mem (start + i) :=
  Nat.testBit_ofBits_lt _ i hi

theorem loadBits_congr (h : ∀ i < len, bit mem (start + i) = bit mem' (start + i)) :
    loadBits mem start len = loadBits mem' start len := by
  unfold loadBits
  congr 1
  funext k
  exact h k k.isLt

theorem loadBits_eq_zero (h : ∀ i < len, bit mem (start + i) = false) :
    loadBits mem start len = 0 := by
  refine Nat.eq_of_testBit_eq fun i => ?_
  rw [Nat.zero_testBit]
  by_cases hi : i < len
  · rw [testBit_loadBits hi, h i hi]
  · exact Nat.testBit_ofBits_ge _ i (Nat.le_of_not_lt hi)

/-- A flag. -/
theorem loadBits_one : (loadBits mem start 1 == 1) = bit mem start := by
  have h := @testBit_loadBits mem start _ _ Nat.zero_lt_one
  have hlt : loadBits mem start 1 < 2 := Nat.ofBits_lt_two_pow _
  rw [Nat.add_zero, Nat.testBit_zero, Nat.mod_eq_of_lt hlt] at h
  rw [← h]
  rfl

theorem load_store_self : loadBits (storeBits mem start len v) start len = v % 2 ^ len := by
  refine Nat.eq_of_testBit_eq fun i => ?_
  rw [Nat.testBit_mod_two_pow]
  by_cases hi : i < len
  · rw [testBit_loadBits hi, bit_storeBits, if_pos (by omega), decide_eq_true hi, Bool.true_and,
      Nat.add_sub_cancel_left]
  · rw [decide_eq_false hi, Bool.false_and]
    exact Nat.testBit_ofBits_ge _ i (Nat.le_of_not_lt hi)

theorem load_store_apart (h : start + len ≤ start' ∨ start' + len' ≤ start) :
    loadBits (storeBits mem start len v) start' len' = loadBits mem start' len' := by
  refine loadBits_congr fun i hi => ?_
  rw [bit_storeBits, if_neg (by omega)]

/-- The bits of a word. -/
theorem getLsbD_word32 {a : Nat} (hi : i < 32) :
    (word32 mem a).getLsbD i = bit mem (8 * a + i) := by
  have hmod : (8 * a + i) % 8 = i % 8 := by omega
  unfold word32 bit
  rw [BitVec.getLsbD_append, BitVec.getLsbD_append, BitVec.getLsbD_append, hmod]
  obtain h | h | h | h : i / 8 = 0 ∨ i / 8 = 1 ∨ i / 8 = 2 ∨ i / 8 = 3 := by omega
  · have hdiv : (8 * a + i) / 8 = a := by omega
    have hbit : i = i % 8 := by omega
    rw [if_pos (by omega), hdiv, ← hbit]
  · have hdiv : (8 * a + i) / 8 = a + 1 := by omega
    have hbit : i - 8 = i % 8 := by omega
    rw [if_neg (by omega), if_pos (by omega), hdiv, hbit]
  · have hdiv : (8 * a + i) / 8 = a + 2 := by omega
    have hbit : i - 8 - 8 = i % 8 := by omega
    rw [if_neg (by omega), if_neg (by omega), if_pos (by omega), hdiv, hbit]
  · have hdiv : (8 * a + i) / 8 = a + 3 := by omega
    have hbit : i - 8 - 8 - 8 = i % 8 := by omega
    rw [if_neg (by omega), if_neg (by omega), if_neg (by omega), hdiv, hbit]

/-- A field of a word is what is read at its place. -/
theorem extractLsb'_word32 {a : Nat} (h : start + len ≤ 32) :
    ((word32 mem a).extractLsb' start len).toNat = loadBits mem (8 * a + start) len := by
  refine Nat.eq_of_testBit_eq fun i => ?_
  rw [BitVec.testBit_toNat, BitVec.getLsbD_extractLsb']
  by_cases hi : i < len
  · rw [decide_eq_true hi, Bool.true_and, getLsbD_word32 (by omega), testBit_loadBits hi,
      Nat.add_assoc]
  · rw [decide_eq_false hi, Bool.false_and]
    exact (Nat.testBit_ofBits_ge _ i (Nat.le_of_not_lt hi)).symm

end

/-! ## 2. Fields -/

/-- The fields of a structure with their widths, in order; `none` is one without a name. -/
abbrev Decl (μ : Type) := List (Option μ × Nat)

section
variable {μ : Type}

/-- The bits of a structure. -/
def Decl.bits (d : Decl μ) : Nat := (d.map Prod.snd).sum

variable [DecidableEq μ]

/-- The first bit of a field and its width. A field that is not declared has no bits. -/
def Decl.place : Decl μ → μ → Nat × Nat
  | [], _ => (0, 0)
  | (m', w) :: d, m =>
    if m' = some m then (0, w) else (w + (place d m).1, (place d m).2)

def Decl.get (d : Decl μ) (mem : Ram) (a : Nat) (m : μ) : Nat :=
  loadBits mem (8 * a + (d.place m).1) (d.place m).2

def Decl.set (d : Decl μ) (mem : Ram) (a : Nat) (m : μ) (v : Nat) : Ram :=
  storeBits mem (8 * a + (d.place m).1) (d.place m).2 v

theorem Decl.place_le (d : Decl μ) (m : μ) : (d.place m).1 + (d.place m).2 ≤ d.bits := by
  induction d with
  | nil => exact Nat.le_refl 0
  | cons f d ih =>
    obtain ⟨m', w⟩ := f
    have hbits : Decl.bits ((m', w) :: d) = w + Decl.bits d := List.sum_cons
    rw [hbits, place]
    split
    · omega
    · omega

/-- Two fields have no bit in common. -/
theorem Decl.place_apart (d : Decl μ) {m m' : μ} (h : m ≠ m') :
    (d.place m).1 + (d.place m).2 ≤ (d.place m').1 ∨
      (d.place m').1 + (d.place m').2 ≤ (d.place m).1 := by
  induction d with
  | nil => exact .inl (Nat.le_refl 0)
  | cons f d ih =>
    obtain ⟨m'', w⟩ := f
    rw [place, place]
    by_cases hm : m'' = some m
    · have hm' : m'' ≠ some m' := fun e => h (Option.some.inj (hm.symm.trans e))
      rw [if_pos hm, if_neg hm']
      exact .inl (by omega)
    · by_cases hm' : m'' = some m'
      · rw [if_neg hm, if_pos hm']
        exact .inr (by omega)
      · rw [if_neg hm, if_neg hm']
        omega

section
variable {d : Decl μ} {mem : Ram} {a a' : Nat} {m m' : μ} {v : Nat}

theorem Decl.get_set_self : d.get (d.set mem a m v) a m = v % 2 ^ (d.place m).2 := load_store_self

theorem Decl.get_set_ne (h : m ≠ m') : d.get (d.set mem a m v) a m' = d.get mem a m' := by
  have hapart := d.place_apart h
  exact load_store_apart (by omega)

/-- An assignment to a field keeps what is not in the structure. -/
theorem Decl.bit_set_apart {i : Nat} (h : i < 8 * a ∨ 8 * a + d.bits ≤ i) :
    bit (d.set mem a m v) i = bit mem i := by
  have hle := d.place_le m
  unfold set
  rw [bit_storeBits, if_neg (by omega)]

/-- A field is made of the bits of its structure. -/
theorem Decl.get_congr {mem' : Ram}
    (h : ∀ k < d.bits, bit mem (8 * a + k) = bit mem' (8 * a + k)) :
    d.get mem a m = d.get mem' a m := by
  have hle := d.place_le m
  refine loadBits_congr fun i hi => ?_
  rw [Nat.add_assoc]
  exact h _ (by omega)

/-- The fields of a zeroed structure. -/
theorem Decl.get_eq_zero (h : ∀ k < d.bits, bit mem (8 * a + k) = false) : d.get mem a m = 0 := by
  have hle := d.place_le m
  refine loadBits_eq_zero fun i hi => ?_
  rw [Nat.add_assoc]
  exact h _ (by omega)

end

end

end LsePc.Lib
