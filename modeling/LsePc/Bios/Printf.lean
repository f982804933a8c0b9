/-
  File:      LsePc/Bios/Printf.lean
  Subject:   `printf` of the BIOS (sw/bios/src/printf.c) down to the bytes on COM1 (uart.c).

  * `Stdout`: the buffer of 65 bytes with its position, and COM1. An access out of bounds is
    a `fault`, here and in the digits of a number;
  * `vprintf`: printf.c function by function. Pointers are what is read from them on (`mem`);
    `n` bounds the turns of a loop over a string;
  * `Item`, `Item.render`: the reference, with the digits of Lean's own numbers;
  * `Puts`: a program that puts these characters, one after the other, and returns this;
  * **result** (`vprintf_renders`): what reaches COM1 is the rendering.

  The LED that `uart_writeb` toggles is not modelled, nor the wait for the transmitter. The count
  is an integer without a bound, where C has an `int`: it is that of the code as long as fewer
  than 2^31 characters are put.
-/
import LsePc.Bios.Strings
import LsePc.Lib.Writer

namespace LsePc.Bios

open LsePc.Lib

/-! ## 1. The buffer and COM1 -/

def BUF_SIZE : Nat := 64

/-- `struct s_file`, and what has been sent on COM1. -/
structure Stdout where
  buff : Vector UInt8 (BUF_SIZE + 1)
  pos : Nat
  com1 : List UInt8

abbrev Out (α : Type) := StateT Stdout Option α

/-- An access out of bounds. -/
def fault {α : Type} : Out α := fun _ => none

/-- `uart_write` on COM1. The string has to end where the memory given ends. -/
def uartWrite (com1 : List UInt8) : List UInt8 → Option (List UInt8)
  | [] => none
  | c :: str =>
    if c = 0 then some com1
    else uartWrite ((if c = 0x0A then com1 ++ [0x0D] else com1) ++ [c]) str

def fflush : Out Unit := fun file =>
  if h : file.pos < BUF_SIZE + 1 then
    let buff := file.buff.set file.pos 0 h
    (uartWrite file.com1 buff.toList).map fun com1 => ((), { buff := buff, pos := 0, com1 := com1 })
  else none

def initBufferedOutput : Out Unit := fun file => some ((), { file with pos := 0 })

def putc (c : UInt8) : Out Unit := fun file =>
  if h : file.pos < BUF_SIZE + 1 then
    let file := { file with buff := file.buff.set file.pos c h, pos := file.pos + 1 }
    if file.pos = BUF_SIZE then fflush file else some ((), file)
  else none

/-! ## 2. Conversions -/

/-- "0123456789abcdef". -/
def digits : List UInt8 :=
  [0x30, 0x31, 0x32, 0x33, 0x34, 0x35, 0x36, 0x37, 0x38, 0x39, 0x61, 0x62, 0x63, 0x64, 0x65, 0x66]

def INT_UNSIGNED : Nat := 1
def INT_SIGNED : Nat := 2

def BASE_HEX : Nat := 16
def BASE_OCT : Nat := 8

/-- `dig[0]`, `dig[1]` and so on, in an array with room for so many. -/
def conv (n base : Nat) : Nat → Option (List Nat)
  | 0 => if n = 0 then some [] else none
  | room + 1 =>
    if n = 0 then some [] else (conv (n / base) base room).map fun dig => n % base :: dig

/-- `putc(base[digits[i]], file)`. -/
def putDigit (base : List UInt8) (d : Nat) : Out Unit :=
  match base[d]? with
  | none => fault
  | some c => putc c

/-- The `count` is one less than the number of digits. -/
def printnbrBase (n : Nat) (base : List UInt8) (card : Nat) : Out Int :=
  if n = 0 then do
    putc 0x30
    pure 1
  else
    match conv n card 96 with
    | none => fault
    | some dig => do
      forM dig.reverse (putDigit base)
      pure ((dig.length : Int) - 1)

def printInt (value : BitVec 32) (flags : Nat) : Out Int :=
  if value.toInt = 0 then do
    putc 0x30
    pure 1
  else if flags = INT_SIGNED then
    if value.toInt < 0 then do
      putc 0x2D
      let count ← printnbrBase (-value).toNat digits 10
      pure (count + 1)
    else printnbrBase value.toNat digits 10
  else printnbrBase value.toNat digits 10

/-- A string of more than `n` characters is a `fault` here. -/
def printStr : Nat → Mem → Out Int
  | 0, _ => fault
  | n + 1, s =>
    if s 0 = 0 then pure 0
    else do
      putc (s 0)
      let count ← printStr n fun i => s (i + 1)
      pure (count + 1)

def printChar (value : BitVec 32) : Out Int := do
  putc (UInt8.ofBitVec (value.setWidth 8))
  pure 1

def printBase (value : BitVec 32) (flags : Nat) : Out Int := printnbrBase value.toNat digits flags

def printPtr (value : BitVec 32) : Out Int := do
  let s ← printStr 3 (cstr [0x30, 0x78])
  let count ← printnbrBase value.toNat digits BASE_HEX
  pure (s + count)

/-- `struct s_format`; `print` is its `fun`. -/
structure SFormat where
  ch : UInt8
  print : BitVec 32 → Nat → Out Int
  flags : Nat

section
variable (mem : BitVec 32 → Mem) (n : Nat)

def formats : List SFormat :=
  [{ ch := 0x64, print := printInt, flags := INT_SIGNED },
   { ch := 0x69, print := printInt, flags := INT_SIGNED },
   { ch := 0x75, print := printInt, flags := INT_UNSIGNED },
   { ch := 0x73, print := fun value _ => printStr n (mem value), flags := 0 },
   { ch := 0x63, print := fun value _ => printChar value, flags := 0 },
   { ch := 0x6F, print := printBase, flags := BASE_OCT },
   { ch := 0x78, print := printBase, flags := BASE_HEX },
   { ch := 0x70, print := fun value _ => printPtr value, flags := 0 }]

/-- `%`. -/
def percent : UInt8 := 0x25

def specialChar (fmt : UInt8) (value : BitVec 32) : Out Int :=
  match (formats mem n).find? fun f => f.ch == fmt with
  | some f => f.print value f.flags
  | none =>
    if fmt ≠ percent then do
      putc percent
      putc fmt
      pure 2
    else do
      putc fmt
      pure 1

/-- The loop over the format, with the arguments `va_arg` has not taken. It takes one for each
    `%`, `%%` included, and behind a `%` at the end it reads on behind the NUL. -/
def vprintfLoop : List UInt8 → List (BitVec 32) → Int → Out (Int × List (BitVec 32))
  | [], args, count => pure (count, args)
  | c :: format, args, count =>
    if c = percent then
      match args, format with
      | arg :: args, fmt :: format => do
        let k ← specialChar mem n fmt arg
        vprintfLoop format args (count + k)
      | _, _ => fault
    else do
      putc c
      vprintfLoop format args (count + 1)

/-- `vprintf`, with the arguments it leaves in the `va_list`. -/
def vprintfVa (format : List UInt8) (args : List (BitVec 32)) :
    Out (Int × List (BitVec 32)) := do
  initBufferedOutput
  let res ← vprintfLoop mem n format args 0
  fflush
  pure res

def vprintf (format : List UInt8) (args : List (BitVec 32)) : Out Int := do
  let res ← vprintfVa mem n format args
  pure res.1

end

/-! ## 3. The reference -/

/-- A line feed follows a carriage return on COM1. -/
def crlf (c : UInt8) : List UInt8 := if c = 0x0A then [0x0D, 0x0A] else [c]

/-- The digits of `n`, as Lean prints them. -/
def number (base n : Nat) : List UInt8 := (Nat.toDigits base n).map Char.toUInt8

inductive Conv where
  | d | i | u | s | c | o | x | p
  deriving DecidableEq, Repr

def Conv.ch : Conv → UInt8
  | .d => 0x64
  | .i => 0x69
  | .u => 0x75
  | .s => 0x73
  | .c => 0x63
  | .o => 0x6F
  | .x => 0x78
  | .p => 0x70

/-- A piece of a format, with its argument. -/
inductive Item where
  | lit (c : UInt8)
  | conv (k : Conv) (v : BitVec 32)
  deriving DecidableEq, Repr

def Item.format : Item → List UInt8
  | .lit c => [c]
  | .conv k _ => [percent, k.ch]

def Item.args : Item → List (BitVec 32)
  | .lit _ => []
  | .conv _ v => [v]

/-- The character an argument of `%c` is. -/
def charOf (v : BitVec 32) : UInt8 := UInt8.ofBitVec (v.setWidth 8)

def signed (v : BitVec 32) : List UInt8 :=
  if v.toInt < 0 then 0x2D :: number 10 v.toInt.natAbs else number 10 v.toInt.natAbs

/-- What is printed for an argument, where `str v` is the string at `v`. -/
def Conv.render (str : BitVec 32 → List UInt8) (v : BitVec 32) : Conv → List UInt8
  | .d => signed v
  | .i => signed v
  | .u => number 10 v.toNat
  | .s => str v
  | .c => [charOf v]
  | .o => number 8 v.toNat
  | .x => number 16 v.toNat
  | .p => 0x30 :: 0x78 :: number 16 v.toNat

def Item.render (str : BitVec 32 → List UInt8) : Item → List UInt8
  | .lit c => [c]
  | .conv k v => k.render str v

/-- In memory there is the string `l`, which has no NUL but the one at its end. -/
structure IsStr (s : Mem) (l : List UInt8) : Prop where
  nonzero : 0 ∉ l
  holds : Holds s l

/-- An argument that matches its conversion. -/
def Item.Fits (mem : BitVec 32 → Mem) (str : BitVec 32 → List UInt8) (n : Nat) : Item → Prop
  | .lit c => c ≠ 0 ∧ c ≠ percent
  | .conv .s v => IsStr (mem v) (str v) ∧ (str v).length < n
  | .conv .c v => charOf v ≠ 0
  | .conv _ _ => True

/-! ## 4. The buffer -/

/-- The bytes in the buffer are no NUL; what has been printed is on COM1 or in the buffer. -/
def com1Out : Output Stdout UInt8 where
  inv file := file.pos < BUF_SIZE ∧ 0 ∉ file.buff.toList.take file.pos
  written file := file.com1 ++ (file.buff.toList.take file.pos).flatMap crlf

theorem uartWrite_str (l r : List UInt8) (hl : 0 ∉ l) (com1 : List UInt8) :
    uartWrite com1 (l ++ 0 :: r) = some (com1 ++ l.flatMap crlf) := by
  induction l generalizing com1 with
  | nil =>
    rw [List.nil_append, uartWrite, if_pos rfl, List.flatMap_nil, List.append_nil]
  | cons c l ih =>
    obtain ⟨hc, hl⟩ := not_or.mp (List.mem_cons.not.mp hl)
    rw [List.cons_append, uartWrite, if_neg (Ne.symm hc), ih hl, List.flatMap_cons]
    unfold crlf
    split
    · rename_i he
      subst he
      simp only [List.append_assoc, List.cons_append, List.nil_append]
    · simp only [List.append_assoc, List.cons_append, List.nil_append]

/-- What `fflush` sends. -/
theorem fflush_eq {file : Stdout} {l : List UInt8} (hpos : file.pos < BUF_SIZE + 1)
    (hl : file.buff.toList.take file.pos = l) (h0 : 0 ∉ l) :
    ∃ file', fflush file = some ((), file') ∧ file'.pos = 0 ∧
      file'.com1 = file.com1 ++ l.flatMap crlf := by
  have hlen : file.pos < file.buff.toList.length := by
    rw [Vector.length_toList]
    exact hpos
  unfold fflush
  rw [dif_pos hpos]
  dsimp only
  rw [Vector.toList_set, List.set_eq_take_append_cons_drop, if_pos hlen, hl, uartWrite_str l _ h0]
  exact ⟨_, rfl, rfl, rfl⟩

theorem initBufferedOutput_eq (file : Stdout) :
    ∃ file', initBufferedOutput file = some ((), file') ∧ com1Out.inv file' ∧
      com1Out.written file' = file.com1 := by
  refine ⟨_, rfl, ⟨Nat.zero_lt_succ _, ?_⟩, ?_⟩
  · rw [List.take_zero]
    exact List.not_mem_nil
  · exact List.append_nil _

theorem take_set {buff : Vector UInt8 (BUF_SIZE + 1)} {pos : Nat} {c : UInt8}
    (h : pos < BUF_SIZE + 1) :
    (buff.set pos c h).toList.take (pos + 1) = buff.toList.take pos ++ [c] := by
  have hlen : pos < buff.toList.length := by
    rw [Vector.length_toList]
    exact h
  rw [Vector.toList_set, List.take_set, List.take_succ_eq_append_getElem hlen,
    List.set_append_right _ _ (List.length_take_le _ _), List.length_take_of_le (Nat.le_of_lt hlen),
    Nat.sub_self, List.set_cons_zero]

/-- The program prints `l`. -/
def Prints {α : Type} (m : Out α) (l : List UInt8) : Prop := Writes com1Out m (l.flatMap crlf)

/-- **A character is in the buffer or, with all before it, on COM1.** -/
theorem putc_prints {c : UInt8} (hc : c ≠ 0) : Prints (putc c) [c] := by
  intro file hfile
  obtain ⟨hpos, h0⟩ := hfile
  have hlt : file.pos < BUF_SIZE + 1 := Nat.lt_succ_of_lt hpos
  have hbuff : (file.buff.set file.pos c hlt).toList.take (file.pos + 1) =
      file.buff.toList.take file.pos ++ [c] := take_set hlt
  have h0' : 0 ∉ file.buff.toList.take file.pos ++ [c] := by
    intro hm
    rcases List.mem_append.mp hm with hm | hm
    · exact h0 hm
    · exact hc (List.mem_singleton.mp hm).symm
  unfold putc
  rw [dif_pos hlt]
  dsimp only
  split
  · rename_i hfull
    have hlt' : file.pos + 1 < BUF_SIZE + 1 := Nat.succ_lt_succ hpos
    obtain ⟨file', hrun, hpos', hcom1⟩ := @fflush_eq ⟨_, _, file.com1⟩ _ hlt' hbuff h0'
    refine ⟨_, file', hrun, ⟨?_, ?_⟩, ?_⟩
    · rw [hpos']
      exact Nat.zero_lt_succ _
    · rw [hpos', List.take_zero]
      exact List.not_mem_nil
    · unfold com1Out
      dsimp only
      rw [hpos', hcom1, List.take_zero, List.flatMap_nil, List.append_nil, List.flatMap_append,
        List.append_assoc]
  · rename_i hfull
    refine ⟨_, _, rfl, ⟨?_, ?_⟩, ?_⟩
    · have hne : file.pos + 1 ≠ BUF_SIZE := hfull
      exact Nat.lt_of_le_of_ne hpos hne
    · exact hbuff ▸ h0'
    · unfold com1Out
      dsimp only
      rw [hbuff, List.flatMap_append, List.append_assoc]

section
variable {α β : Type} {l l' : List UInt8}

theorem Prints.pure (a : α) : Prints (Pure.pure a) [] := Writes.pure a

theorem Prints.bind {m : Out α} {k : α → Out β} (hm : Prints m l) (hk : ∀ a, Prints (k a) l') :
    Prints (m >>= k) (l ++ l') := by
  unfold Prints
  rw [List.flatMap_append]
  exact Writes.bind hm hk

theorem Prints.map {m : Out α} (hm : Prints m l) (f : α → β) :
    Prints (m >>= fun a => Pure.pure (f a)) l := Writes.map hm f

end

/-! ## 5. Programs that put characters -/

/-- The program puts `l` and returns `a`. -/
def Puts {α : Type} (m : Out α) (l : List UInt8) (a : α) : Prop :=
  m = (forM l putc >>= fun _ => pure a)

section
variable {α β : Type} {l l' : List UInt8} {a : α} {b : β}

theorem Puts.pure (a : α) : Puts (Pure.pure a) [] a := by
  unfold Puts
  rw [List.forM_nil, pure_bind]

theorem Puts.bind {m : Out α} {k : α → Out β} (hm : Puts m l a) (hk : Puts (k a) l' b) :
    Puts (m >>= k) (l ++ l') b := by
  unfold Puts at *
  rw [hm, List.forM_append, bind_assoc, bind_assoc]
  simp only [pure_bind, hk]

theorem Puts.map {m : Out α} (hm : Puts m l a) (f : α → β) :
    Puts (m >>= fun a => Pure.pure (f a)) l (f a) := by
  have h := hm.bind (k := fun a => Pure.pure (f a)) (Puts.pure (f a))
  rwa [List.append_nil] at h

theorem Puts.of_eq {m : Out α} {a' : α} (h : Puts m l a) (ha : a = a') : Puts m l a' := ha ▸ h

theorem putc_puts (c : UInt8) : Puts (putc c) [c] () := by
  unfold Puts
  rw [List.forM_cons, List.forM_nil]
  simp only [bind_assoc, pure_bind]
  exact bind_pure_unit.symm

theorem putAll_prints (h0 : 0 ∉ l) : Prints (forM l putc) l := by
  unfold Prints
  refine Writes.list fun c hc => ?_
  have hput := putc_prints (c := c) fun e => h0 (e ▸ hc)
  unfold Prints at hput
  rwa [List.flatMap_singleton] at hput

/-- What is put is printed, if there is no NUL in it. -/
theorem Puts.prints {m : Out α} (h : Puts m l a) (h0 : 0 ∉ l) : Prints m l := by
  unfold Puts at h
  rw [h]
  exact (putAll_prints h0).map fun _ => a

end

/-! ## 6. Strings and numbers -/

theorem printStr_puts {s : Mem} {n : Nat} {l : List UInt8} (h : IsStr s l) (hn : l.length < n) :
    Puts (printStr n s) l l.length := by
  induction l generalizing s n with
  | nil =>
    obtain ⟨n, rfl⟩ := Nat.exists_eq_add_one_of_ne_zero (Nat.ne_of_gt hn)
    rw [printStr, if_pos h.holds.nil]
    exact .pure _
  | cons c l ih =>
    obtain ⟨n, rfl⟩ := Nat.exists_eq_add_one_of_ne_zero (Nat.ne_of_gt (Nat.zero_lt_of_lt hn))
    obtain ⟨hc0, hl⟩ := not_or.mp (List.mem_cons.not.mp h.nonzero)
    have hrest : IsStr (fun i => s (i + 1)) l := ⟨hl, h.holds.tail⟩
    rw [printStr, h.holds.head, if_neg (Ne.symm hc0)]
    exact (putc_puts c).bind ((ih hrest (Nat.lt_of_succ_lt_succ hn)).map fun count => count + 1)

/-- The digits of a number, the last one first. -/
theorem conv_toDigits {base : Nat} (hb : 1 < base) {room : Nat} :
    ∀ {n : Nat}, n < base ^ room → 0 < n → ∃ dig, conv n base room = some dig ∧
      (∀ d ∈ dig, d < base) ∧ dig.reverse.map Nat.digitChar = Nat.toDigits base n := by
  induction room with
  | zero =>
    intro n hn hpos
    rw [Nat.pow_zero] at hn
    omega
  | succ room ih =>
    intro n hn hpos
    have hmod : n % base < base := Nat.mod_lt n (by omega)
    rw [conv, if_neg (Nat.ne_of_gt hpos), Nat.toDigits_eq_if hb]
    split
    · rename_i hlt
      have hconv : conv (n / base) base room = some [] := by
        rw [Nat.div_eq_of_lt hlt]
        cases room <;> rfl
      refine ⟨[n % base], by rw [hconv]; rfl, fun d hd => ?_, ?_⟩
      · exact List.mem_singleton.mp hd ▸ hmod
      · rw [Nat.mod_eq_of_lt hlt]
        rfl
    · rename_i hge
      obtain ⟨dig, hdig, hd, hrev⟩ := ih (n := n / base)
        (Nat.div_lt_of_lt_mul (by rwa [Nat.pow_succ, Nat.mul_comm] at hn))
        (Nat.div_pos (Nat.le_of_not_lt hge) (by omega))
      refine ⟨n % base :: dig, by rw [hdig]; rfl, fun d hd' => ?_, ?_⟩
      · rcases List.mem_cons.mp hd' with rfl | hd'
        · exact hmod
        · exact hd d hd'
      · rw [List.reverse_cons, List.map_append, hrev]
        rfl

/-- The table of digits has Lean's digits. -/
theorem digits_get : ∀ d < 16, digits[d]? = some (Nat.digitChar d).toUInt8 ∧
    (Nat.digitChar d).toUInt8 ≠ 0 := by decide

theorem putDigits_puts {ds : List Nat} (h : ∀ d ∈ ds, d < 16) :
    Puts (forM ds (putDigit digits)) ((ds.map Nat.digitChar).map Char.toUInt8) () := by
  induction ds with
  | nil => exact .pure _
  | cons d ds ih =>
    obtain ⟨hd, hds⟩ := List.forall_mem_cons.mp h
    have hput : putDigit digits d = putc (Nat.digitChar d).toUInt8 := by
      unfold putDigit
      rw [(digits_get d hd).1]
    rw [List.forM_cons, hput]
    exact (putc_puts _).bind (ih hds)

/-- The digits of a number fit in the array. -/
theorem conv_number {n base : Nat} (hn : n < 2 ^ 32) (hb : 8 ≤ base) (hb' : base ≤ 16)
    (hpos : 0 < n) : ∃ dig, conv n base 96 = some dig ∧ (∀ d ∈ dig.reverse, d < 16) ∧
      number base n = (dig.reverse.map Nat.digitChar).map Char.toUInt8 := by
  have hroom : n < base ^ 96 := by
    calc n < 2 ^ 32 := hn
      _ ≤ 8 ^ 96 := by decide
      _ ≤ base ^ 96 := Nat.pow_le_pow_left hb 96
  obtain ⟨dig, hdig, hd, hrev⟩ := conv_toDigits (by omega) hroom hpos
  refine ⟨dig, hdig, fun d hm => Nat.lt_of_lt_of_le (hd d (List.mem_reverse.mp hm)) hb', ?_⟩
  unfold number
  rw [hrev]

theorem number_nonzero {n base : Nat} (hn : n < 2 ^ 32) (hb : 8 ≤ base) (hb' : base ≤ 16) :
    0 ∉ number base n := by
  rcases Nat.eq_zero_or_pos n with rfl | hpos
  · unfold number
    rw [Nat.toDigits_zero]
    decide
  · obtain ⟨dig, -, hd, hnum⟩ := conv_number hn hb hb' hpos
    rw [hnum, List.map_map]
    intro h
    obtain ⟨d, hm, h0⟩ := List.mem_map.mp h
    exact (digits_get d (hd d hm)).2 h0

/-- The digits are put, the count is one too small. -/
theorem printnbrBase_puts {n base : Nat} (hn : n < 2 ^ 32) (hb : 8 ≤ base) (hb' : base ≤ 16) :
    Puts (printnbrBase n digits base) (number base n)
      ((number base n).length - if n = 0 then 0 else 1) := by
  unfold printnbrBase
  split
  · rename_i h0
    subst h0
    unfold number
    rw [Nat.toDigits_zero]
    exact (putc_puts 0x30).map fun _ => 1
  · rename_i h0
    obtain ⟨dig, hdig, hd, hnum⟩ := conv_number hn hb hb' (Nat.pos_of_ne_zero h0)
    rw [hdig, hnum, List.length_map, List.length_map, List.length_reverse]
    exact (putDigits_puts hd).map fun _ => (dig.length : Int) - 1

/-- The minimum is its own negative, and prints as the number it is without a sign. -/
theorem toNat_neg_of_neg {v : BitVec 32} (h : v.toInt < 0) : (-v).toNat = v.toInt.natAbs := by
  have hlt := v.isLt
  rw [BitVec.toInt_eq_toNat_cond] at h ⊢
  rw [BitVec.toNat_neg]
  split at h
  · omega
  · rename_i hge
    rw [if_neg hge]
    omega

theorem toNat_of_nonneg {v : BitVec 32} (h : ¬ v.toInt < 0) : v.toNat = v.toInt.natAbs := by
  have hlt := v.isLt
  rw [BitVec.toInt_eq_toNat_cond] at h ⊢
  split at h
  · rename_i hlow
    rw [if_pos hlow]
    omega
  · omega

section
variable {v : BitVec 32}

theorem toNat_eq_zero_iff : v.toNat = 0 ↔ v = 0 :=
  ⟨fun h => BitVec.eq_of_toNat_eq h, fun h => h ▸ rfl⟩

theorem printBase_puts {flags : Nat} (hb : 8 ≤ flags) (hb' : flags ≤ 16) :
    Puts (printBase v flags) (number flags v.toNat)
      ((number flags v.toNat).length - if v = 0 then 0 else 1) := by
  have h := printnbrBase_puts v.isLt hb hb'
  simp only [toNat_eq_zero_iff] at h
  exact h

theorem printInt_unsigned_puts : Puts (printInt v INT_UNSIGNED) (number 10 v.toNat)
    ((number 10 v.toNat).length - if v = 0 then 0 else 1) := by
  have hprint : printInt v INT_UNSIGNED = printBase v 10 := by
    unfold printInt printBase
    split
    · rename_i h0
      obtain rfl : v = 0 := BitVec.eq_of_toInt_eq h0
      rfl
    · exact if_neg (by decide)
  rw [hprint]
  exact printBase_puts (by decide) (by decide)

/-- The sign is counted. -/
theorem printInt_neg_puts (hneg : v.toInt < 0) : Puts (printInt v INT_SIGNED) (signed v)
    ((signed v).length - 1) := by
  have h0 : -v ≠ 0 := by
    intro h
    rw [BitVec.neg_eq_zero_iff.mp h] at hneg
    exact absurd hneg (by decide)
  have hsigned : signed v = 0x2D :: number 10 v.toInt.natAbs := if_pos hneg
  have hcount : Puts (printBase (-v) 10 >>= fun count => pure (count + 1))
      (number 10 v.toInt.natAbs) (number 10 v.toInt.natAbs).length := by
    have h := (@printBase_puts (-v) 10 (by decide) (by decide)).map
      fun count => count + 1
    rwa [if_neg h0, toNat_neg_of_neg hneg, Int.sub_add_cancel] at h
  unfold printInt
  rw [if_neg (Int.ne_of_lt hneg), if_pos rfl, if_pos hneg, hsigned, List.length_cons,
    Int.natCast_add, Int.natCast_one, Int.add_sub_cancel]
  exact (putc_puts 0x2D).bind hcount

theorem printInt_signed_puts : Puts (printInt v INT_SIGNED) (signed v)
    ((signed v).length - if v = 0 then 0 else 1) := by
  by_cases hneg : v.toInt < 0
  · have h0 : v ≠ 0 := by
      rintro rfl
      exact absurd hneg (by decide)
    rw [if_neg h0]
    exact printInt_neg_puts hneg
  · have hprint : printInt v INT_SIGNED = printInt v INT_UNSIGNED := by
      unfold printInt
      rw [if_pos (rfl : INT_SIGNED = INT_SIGNED), if_neg hneg,
        if_neg (by decide : ¬ INT_UNSIGNED = INT_SIGNED)]
    have hsigned : signed v = number 10 v.toNat := by
      rw [toNat_of_nonneg hneg]
      exact if_neg hneg
    rw [hprint, hsigned]
    exact printInt_unsigned_puts

theorem printPtr_puts : Puts (printPtr v) (0x30 :: 0x78 :: number 16 v.toNat)
    ((0x30 :: 0x78 :: number 16 v.toNat).length - if v = 0 then 0 else 1) := by
  have hstr : IsStr (cstr [0x30, 0x78]) [0x30, 0x78] := ⟨by decide, holds_cstr _⟩
  have hlen : [0x30, 0x78].length < 3 := by decide
  have hcount : (2 : Int) + ((number 16 v.toNat).length - if v = 0 then 0 else 1) =
      (0x30 :: 0x78 :: number 16 v.toNat).length - if v = 0 then 0 else 1 := by
    rw [List.length_cons, List.length_cons]
    omega
  rw [← hcount]
  exact (printStr_puts hstr hlen).bind
    ((printBase_puts (by decide) (by decide)).map fun count => (2 : Int) + count)

theorem signed_nonzero : 0 ∉ signed v := by
  have hlt := v.isLt
  have hnum : 0 ∉ number 10 v.toInt.natAbs := by
    refine number_nonzero ?_ (by decide) (by decide)
    rw [BitVec.toInt_eq_toNat_cond]
    split
    · omega
    · omega
  unfold signed
  split
  · exact List.not_mem_cons_of_ne_of_not_mem (by decide) hnum
  · exact hnum

end

/-! ## 7. The format -/

section
variable {mem : BitVec 32 → Mem} {str : BitVec 32 → List UInt8} {n : Nat}

theorem specialChar_prints {k : Conv} {v : BitVec 32} (h : (Item.conv k v).Fits mem str n) :
    Prints (specialChar mem n k.ch v) (k.render str v) := by
  have hnum : ∀ base, 8 ≤ base → base ≤ 16 → 0 ∉ number base v.toNat :=
    fun base => number_nonzero v.isLt
  cases k with
  | d => exact printInt_signed_puts.prints signed_nonzero
  | i => exact printInt_signed_puts.prints signed_nonzero
  | u => exact printInt_unsigned_puts.prints (hnum 10 (by decide) (by decide))
  | s => exact (printStr_puts h.1 h.2).prints h.1.nonzero
  | c => exact (putc_prints h).map fun _ => 1
  | o => exact (printBase_puts (by decide) (by decide)).prints (hnum 8 (by decide) (by decide))
  | x => exact (printBase_puts (by decide) (by decide)).prints (hnum 16 (by decide) (by decide))
  | p =>
    refine printPtr_puts.prints fun hm => ?_
    rcases List.mem_cons.mp hm with h0 | hm
    · exact absurd h0 (by decide)
    · rcases List.mem_cons.mp hm with h0 | hm
      · exact absurd h0 (by decide)
      · exact hnum 16 (by decide) (by decide) hm

theorem vprintfLoop_lit {c : UInt8} (hc : c ≠ percent) (format : List UInt8)
    (args : List (BitVec 32)) (count : Int) :
    vprintfLoop mem n (c :: format) args count =
      (putc c >>= fun _ => vprintfLoop mem n format args (count + 1)) := by
  conv_lhs => unfold vprintfLoop
  exact if_neg hc

theorem vprintfLoop_conv (fmt : UInt8) (format : List UInt8) (arg : BitVec 32)
    (args : List (BitVec 32)) (count : Int) :
    vprintfLoop mem n (percent :: fmt :: format) (arg :: args) count =
      (specialChar mem n fmt arg >>= fun k => vprintfLoop mem n format args (count + k)) := by
  rw [vprintfLoop, if_pos rfl]

theorem vprintfLoop_prints {items : List Item} (h : ∀ x ∈ items, x.Fits mem str n) (count : Int) :
    Prints (vprintfLoop mem n (items.flatMap Item.format) (items.flatMap Item.args) count)
      (items.flatMap (Item.render str)) := by
  induction items generalizing count with
  | nil => exact .pure (count, [])
  | cons x items ih =>
    have hx := h x List.mem_cons_self
    have ih := ih fun y hy => h y (List.mem_cons_of_mem x hy)
    cases x with
    | lit c =>
      change Prints (vprintfLoop mem n (c :: items.flatMap Item.format) _ count)
        ([c] ++ items.flatMap (Item.render str))
      rw [vprintfLoop_lit hx.2]
      exact (putc_prints hx.1).bind fun _ => ih (count + 1)
    | conv k v =>
      change Prints (vprintfLoop mem n (percent :: k.ch :: items.flatMap Item.format)
        (v :: items.flatMap Item.args) count) (k.render str v ++ items.flatMap (Item.render str))
      rw [vprintfLoop_conv]
      exact (specialChar_prints hx).bind fun c => ih (count + c)

theorem vprintf_of_loop {format : List UInt8} {args : List (BitVec 32)}
    {res : Int × List (BitVec 32)} {file file₁ file₂ file₃ : Stdout}
    (hinit : initBufferedOutput file = some ((), file₁))
    (hloop : vprintfLoop mem n format args 0 file₁ = some (res, file₂))
    (hflush : fflush file₂ = some ((), file₃)) :
    vprintf mem n format args file = some (res.1, file₃) := by
  have hva : vprintfVa mem n format args file = some (res, file₃) := by
    unfold vprintfVa
    rw [bind_run hinit, bind_run hloop, bind_run hflush]
    rfl
  unfold vprintf
  rw [bind_run hva]
  rfl

/-- From the loop to COM1: what is in the buffer at the end is flushed. -/
theorem vprintf_run {format : List UInt8} {args : List (BitVec 32)} {l : List UInt8}
    (h : Prints (vprintfLoop mem n format args 0) l) (file : Stdout) :
    ∃ count file', vprintf mem n format args file = some (count, file') ∧
      file'.com1 = file.com1 ++ l.flatMap crlf := by
  obtain ⟨file₁, hinit, hinv₁, hw₁⟩ := initBufferedOutput_eq file
  obtain ⟨count, file₂, hloop, hinv₂, hw₂⟩ := h file₁ hinv₁
  obtain ⟨file₃, hflush, -, hcom1⟩ := fflush_eq (Nat.lt_succ_of_lt hinv₂.1) rfl hinv₂.2
  refine ⟨count.1, file₃, vprintf_of_loop hinit hloop hflush, ?_⟩
  rw [hcom1, ← hw₁, ← hw₂]
  rfl

/-- **What is sent on COM1 is the rendering of the format**, and every access of the buffer is
    in its bounds. -/
theorem vprintf_renders (items : List Item) (h : ∀ x ∈ items, x.Fits mem str n) (file : Stdout) :
    ∃ count file', vprintf mem n (items.flatMap Item.format) (items.flatMap Item.args) file =
      some (count, file') ∧
      file'.com1 = file.com1 ++ (items.flatMap (Item.render str)).flatMap crlf :=
  vprintf_run (vprintfLoop_prints h 0) file

/-- The zeroed memory of stdout. -/
def blankStdout : Stdout := { buff := Vector.replicate (BUF_SIZE + 1) 0, pos := 0, com1 := [] }

/-- `%d`, a line feed and `%s`, with the minimum and a string of two characters. -/
theorem vprintf_renders_min :
    ∃ count file', vprintf (fun _ => cstr [0x68, 0x69]) 3 [0x25, 0x64, 0x0A, 0x25, 0x73]
      [0x80000000, 0] blankStdout = some (count, file') ∧
      file'.com1 = [0x2D, 0x32, 0x31, 0x34, 0x37, 0x34, 0x38, 0x33, 0x36, 0x34, 0x38,
        0x0D, 0x0A, 0x68, 0x69] := by
  have hstr : IsStr (cstr [0x68, 0x69]) [0x68, 0x69] := ⟨by decide, holds_cstr _⟩
  have hfits : ∀ x ∈ [.conv .d 0x80000000, .lit 0x0A, .conv .s 0],
      Item.Fits (fun _ => cstr [0x68, 0x69]) (fun _ => [0x68, 0x69]) 3 x := by
    intro x hx
    simp only [List.mem_cons, List.not_mem_nil, or_false] at hx
    rcases hx with rfl | rfl | rfl
    · trivial
    · exact ⟨by decide, by decide⟩
    · exact ⟨hstr, by decide⟩
  exact vprintf_renders _ hfits blankStdout

end

end LsePc.Bios
