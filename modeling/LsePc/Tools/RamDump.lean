/-
  File:      LsePc/Tools/RamDump.lean
  Subject:   `memory dump` (sw/tools/memory): the internal RAM as a table.

  * `dumpRequest`, `dumpRam`: what is asked of the JTAG tool, and what is printed. The offset
    goes to the tool as the address of a word, the size is in bytes;
  * `ramFormat`: the table. A `fault` is an exception, `running` a loop that is not left;
  * `readDump`: the rows of a text, with their labels and their words;
  * **result** (`dump_right_iff`): when only words of the RAM are asked for and the table has
    each of them once, at its address.
-/
import LsePc.Lib.Loop
import LsePc.Tools.Bin2mif

namespace LsePc.Tools.RamDump

open LsePc.Lib
open LsePc.Tools.Bin2mif (hex readNumber readNumber_hex expect expect_append)

/-! ## 1. `ram_format` -/

def digits : List Char := "0123456789".toList
def asciiLetters : List Char := "abcdefghijklmnopqrstuvwxyzABCDEFGHIJKLMNOPQRSTUVWXYZ".toList
def punctuation : List Char := "!\"#$%&'()*+,-./:;<=>?@[\\]^_`\x7b|\x7d~".toList

def isPrintable (char : Char) : Bool :=
  char == ' ' || (digits ++ asciiLetters ++ punctuation).contains char

/-- The value of a hexadecimal digit, in either case. -/
def hexDigit (c : Char) : Option Nat :=
  if '0' ≤ c ∧ c ≤ '9' then some (c.toNat - 48)
  else if 'A' ≤ c ∧ c ≤ 'F' then some (c.toNat - 55)
  else if 'a' ≤ c ∧ c ≤ 'f' then some (c.toNat - 87)
  else none

/-- `int(hex_str, 16)` of two digits. The signs and blanks that Python takes too are not in a
    string of the tool. -/
def int16 (c c' : Char) : Option Nat := do
  let high ← hexDigit c
  let low ← hexDigit c'
  pure (16 * high + low)

/-- What the right column shows of a byte. -/
def shown (v : Nat) : Char := if isPrintable (Char.ofNat v) then Char.ofNat v else '.'

/-- `{0:4X}`. -/
def format4X (n : Int) : List Char :=
  let text := (if n < 0 then ['-'] else []) ++ hex n.natAbs
  List.replicate (4 - text.length) ' ' ++ text

/-- `sys.maxsize`. -/
def maxsize : Int := 2 ^ 63 - 1

/-- `{0: <{size}}`; a width is not negative and not above `sys.maxsize`. -/
def formatLeft (text : List Char) (size : Int) : Option (List Char) :=
  if size < 0 ∨ maxsize < size then none
  else some (text ++ List.replicate (size.toNat - text.length) ' ')

/-- The variables of the loop over a row. -/
structure RowVars where
  i : Int
  line : List Char
  hexValues : List Char

section
variable (ram : List Char)

/-- `ram[i]`, where `i` is not negative. -/
def char (i : Int) : Option Char := ram[i.toNat]?

def rowBody (r : RowVars) : Option RowVars := do
  let c3 ← char ram (r.i - 3)
  let c2 ← char ram (r.i - 2)
  let c1 ← char ram (r.i - 1)
  let c0 ← char ram r.i
  let line := r.line ++ [c3, c2] ++ [' '] ++ [c1, c0] ++ "  ".toList
  let v1 ← int16 c3 c2
  let v0 ← int16 c1 c0
  pure { i := r.i - 4, line := line, hexValues := r.hexValues ++ [shown v1] ++ [shown v0] }

/-- `for _ in range(n)`. -/
def rowLoop : Nat → RowVars → Option RowVars
  | 0, r => some r
  | n + 1, r => if r.i < 3 then some r else rowBody ram r >>= rowLoop n

structure DumpVars where
  offset : Int
  i : Int
  output : List Char

def dumpRound (granu : Int) (s : DumpVars) : Round DumpVars (List Char) :=
  if s.i > 2 then
    let row := do
      let r ← rowLoop ram granu.toNat { i := s.i, line := [], hexValues := [] }
      let line ← formatLeft r.line ("XX XX  ".toList.length * granu)
      pure (r, line)
    match row with
    | none => .fault
    | some (r, line) =>
      .next
        { offset := s.offset + granu
          i := r.i
          output := s.output ++ (format4X s.offset ++ "    ".toList) ++ (line ++ "  ".toList) ++
            (r.hexValues ++ ['\n']) }
  else .leave s.output

/-- `size` is the number of words. -/
def ramFormat (offset size granu : Int) (rounds : Nat) : Outcome (List Char) :=
  runLoop (dumpRound ram granu) rounds { offset := offset, i := size * 4 - 1, output := [] }

end

/-! ## 2. `dump_ram` -/

/-- A natural number as a float has it: 53 binary digits, ties to even. -/
def roundFloat (m : Nat) : Nat :=
  let e := m.log2 + 1 - 53
  let q := m / 2 ^ e
  let r := m % 2 ^ e
  (if 2 ^ e < 2 * r ∨ (2 * r = 2 ^ e ∧ q % 2 = 1) then q + 1 else q) * 2 ^ e

/-- `int(size / 2)`, with a division of floats that may overflow. -/
def half (size : Int) : Option Int :=
  let m := roundFloat size.natAbs
  if 2 ^ 1025 ≤ m then none else some (size.sign * (m / 2 : Nat))

/-- The parameters of `read_content_from_memory` in the script. -/
structure Request where
  startAddress : Int
  wordCount : Int
  deriving DecidableEq, Repr

/-- The size, truncated so as not to go out of the RAM. -/
def truncated (offset size : Int) : Int := if offset + size > 32768 then 32768 - offset else size

def dumpRequest (offset size : Int) : Option Request := do
  let size ← half (truncated offset size)
  pure { startAddress := offset, wordCount := size }

def warning (offset size : Int) : List Char :=
  if offset + size > 32768 then
    "Warning: size truncated to ".toList ++ (toString (32768 - offset)).toList ++
      " to avoid going out of RAM\n".toList
  else []

/-- What `strip` takes away. -/
def isBlank (c : Char) : Bool :=
  (9 ≤ c.toNat && c.toNat ≤ 13) || (28 ≤ c.toNat && c.toNat ≤ 32) || c.toNat == 0x85 ||
  c.toNat == 0xA0 || c.toNat == 0x1680 || (0x2000 ≤ c.toNat && c.toNat ≤ 0x200A) ||
  c.toNat == 0x2028 || c.toNat == 0x2029 || c.toNat == 0x202F || c.toNat == 0x205F ||
  c.toNat == 0x3000

/-- `quartus_filter`: the lines that do not start with `Info`. -/
def quartusFilter (output : List Char) : List Char :=
  (output.splitOn '\n').flatMap fun line =>
    if (line.dropWhile isBlank).take 4 ≠ "Info".toList then line ++ ['\n'] else []

section
-- what the runs of the tool print, or print before they fail
variable (quartusStp : Nat → Request → Except (List Char) (List Char))

/-- The loop of `dump_ram`, whose next run of the tool is the run `k`. -/
def dumpLoop (req : Request) (granu loop : Int) : Nat → Nat → List Char → Outcome (List Char)
  | 0, _, _ => .running
  | n + 1, k, printed =>
    match quartusStp k req with
    | .error output => .done (printed ++ quartusFilter output)
    | .ok output => do
      let text ← ramFormat (quartusFilter output) req.startAddress req.wordCount granu n
      if loop < 0 then .done (printed ++ text)
      else dumpLoop req granu loop n (k + 1) (printed ++ text)

def dumpRam (offset size granu loop : Int) (rounds : Nat) : Outcome (List Char) :=
  match dumpRequest offset size with
  | none => .fault
  | some req => dumpLoop quartusStp req granu loop rounds 0 (warning offset size)

/-- The arguments of `dump`, with the defaults of `arg_parse`. -/
structure DumpArgs where
  offset : Int := 0
  size : Int := 0x8000
  granularity : Int := 8
  loop : Int := -1

def main (args : DumpArgs) (rounds : Nat) : Outcome (List Char) :=
  dumpRam quartusStp args.offset args.size args.granularity args.loop rounds

end

/-! ## 3. The reference -/

/-- A word as the tool writes it, the highest digit first, with the values of its bytes. -/
structure HexWord where
  c3 : Char
  c2 : Char
  c1 : Char
  c0 : Char
  high : Nat
  low : Nat
  int16_high : int16 c3 c2 = some high
  int16_low : int16 c1 c0 = some low

namespace HexWord

def value (w : HexWord) : Nat := 256 * w.high + w.low

def chars (w : HexWord) : List Char := [w.c3, w.c2, w.c1, w.c0]

/-- How a row has it. -/
def text (w : HexWord) : List Char := [w.c3, w.c2, ' ', w.c1, w.c0, ' ', ' ']

def shown (w : HexWord) : List Char := [RamDump.shown w.high, RamDump.shown w.low]

def zero : HexWord := ⟨'0', '0', '0', '0', 0, 0, rfl, rfl⟩

end HexWord

/-- The string of the tool: the highest address first. -/
def toolText (ws : List HexWord) : List Char := ws.reverse.flatMap HexWord.chars

/-- A row of a text. -/
structure Row where
  label : Nat
  words : List Nat
  deriving DecidableEq, Repr

/-- The words of a row are at its label and behind it. -/
def Row.cells (r : Row) : List (Nat × Nat) := (r.words.zipIdx r.label).map fun x => (x.2, x.1)

/-- The words at the start of a column. -/
def readWords : List Char → List Nat
  | c3 :: c2 :: s2 :: c1 :: c0 :: s1 :: s0 :: cs =>
    if s2 = ' ' ∧ s1 = ' ' ∧ s0 = ' ' then
      match int16 c3 c2, int16 c1 c0 with
      | some high, some low => (256 * high + low) :: readWords cs
      | _, _ => []
    else []
  | _ => []

/-- The row at the start of a text, whose rows have room for `granu` words. -/
def readRow (granu : Nat) (cs : List Char) : Option (Row × List Char) := do
  let (label, cs) := readNumber 16 (cs.dropWhile fun c => c == ' ') 0
  let cs ← expect "    ".toList cs
  let behind := (cs.drop (7 * granu)).dropWhile fun c => c != '\n'
  pure ({ label := label, words := readWords (cs.take (7 * granu)) }, behind.drop 1)

/-- At most `n` rows, to the end of the text. -/
def readRows (granu : Nat) : Nat → List Char → Option (List Row)
  | _, [] => some []
  | 0, _ :: _ => none
  | n + 1, c :: cs => do
    let (r, cs) ← readRow granu (c :: cs)
    let rs ← readRows granu n cs
    pure (r :: rs)

/-- **What a text says.** -/
def readDump (granu : Nat) (text : List Char) : Option (List Row) :=
  readRows granu text.length text

/-- **A right dump**: every word that is asked for is in the RAM, and the table of what the tool
    writes has each of them once, in the order of the addresses, and no empty row. -/
def DumpRight (offset : Nat) (size granu : Int) : Prop :=
  ∀ req, dumpRequest offset size = some req →
    (∀ k : Nat, k < req.wordCount →
      0 ≤ req.startAddress + k ∧ req.startAddress + k < 16384) ∧
    ∀ (mem : Nat → BitVec 16) (ws : List HexWord) (rest : List Char),
      ws.map HexWord.value =
        ((List.range req.wordCount.toNat).map fun k => (mem (offset + k)).toNat) →
      ∃ text, Returns (ramFormat (toolText ws ++ rest) req.startAddress req.wordCount granu) text ∧
        ∃ rows, readDump granu.toNat text = some rows ∧ (∀ r ∈ rows, r.words ≠ []) ∧
          rows.flatMap Row.cells =
            (List.range req.wordCount.toNat).map fun k => (offset + k, (mem (offset + k)).toNat)

/-! ## 4. A row -/

variable {ws : List HexWord}

theorem toolText_cons (w : HexWord) (ws : List HexWord) :
    toolText (w :: ws) = toolText ws ++ w.chars := by
  unfold toolText
  rw [List.reverse_cons, List.flatMap_append, List.flatMap_singleton]

theorem length_toolText (ws : List HexWord) : (toolText ws).length = 4 * ws.length := by
  induction ws with
  | nil => rfl
  | cons w ws ih =>
    have hchars : w.chars.length = 4 := rfl
    rw [toolText_cons, List.length_append, ih, hchars, List.length_cons, Nat.mul_succ]

/-- A character behind a text. -/
theorem char_append (front : List Char) (cs : List Char) {i : Int} (k : Nat)
    (hi : i = front.length + k) : char (front ++ cs) i = cs[k]? := by
  have hnat : i.toNat = front.length + k := by omega
  unfold char
  rw [hnat, List.getElem?_append_right (Nat.le_add_right _ _), Nat.add_sub_cancel_left]

theorem rowBody_eq (w : HexWord) (ws : List HexWord) (behind line hexValues : List Char) :
    rowBody (toolText (w :: ws) ++ behind) ⟨4 * (ws.length + 1) - 1, line, hexValues⟩ =
      some ⟨4 * ws.length - 1, line ++ w.text, hexValues ++ w.shown⟩ := by
  have hlen := length_toolText ws
  have hc : ∀ (k : Nat) (i : Int), i = 4 * ws.length + k →
      char (toolText (w :: ws) ++ behind) i = (w.chars ++ behind)[k]? := by
    intro k i hi
    rw [toolText_cons, List.append_assoc]
    exact char_append _ _ k (by omega)
  unfold rowBody
  dsimp only
  rw [hc 0 _ (by omega), hc 1 _ (by omega), hc 2 _ (by omega), hc 3 _ (by omega)]
  simp only [HexWord.chars, List.cons_append, List.getElem?_cons_zero, List.getElem?_cons_succ,
    Option.bind_eq_bind, Option.bind_some, w.int16_high, w.int16_low]
  refine congrArg some ?_
  rw [RowVars.mk.injEq]
  refine ⟨by omega, ?_, ?_⟩
  · simp [HexWord.text]
  · simp [HexWord.shown]

/-- **A row** takes its words from the end of the string. -/
theorem rowLoop_eq (n : Nat) : ∀ (ws : List HexWord) (behind line hexValues : List Char),
    rowLoop (toolText ws ++ behind) n ⟨4 * ws.length - 1, line, hexValues⟩ =
      some ⟨4 * (ws.drop n).length - 1, line ++ (ws.take n).flatMap HexWord.text,
        hexValues ++ (ws.take n).flatMap HexWord.shown⟩ := by
  induction n with
  | zero =>
    intro ws behind line hexValues
    simp [rowLoop]
  | succ n ih =>
    intro ws behind line hexValues
    cases ws with
    | nil =>
      have hout : (4 * (([] : List HexWord).length : Int) - 1) < 3 := by decide
      rw [rowLoop, if_pos hout]
      simp
    | cons w ws =>
      have hlen : ((w :: ws).length : Int) = ws.length + 1 := rfl
      have hin : ¬ (4 * ((ws.length : Int) + 1) - 1) < 3 := by omega
      rw [hlen, rowLoop, if_neg hin, rowBody_eq, Option.bind_eq_bind, Option.bind_some,
        toolText_cons, List.append_assoc, ih]
      simp only [List.drop_succ_cons, List.take_succ_cons, List.flatMap_cons, List.append_assoc]

/-! ## 5. The table -/

/-- A row as it is printed. -/
def rowText (granu label : Nat) (ws : List HexWord) : List Char :=
  format4X label ++ "    ".toList ++
  ((ws.flatMap HexWord.text ++ List.replicate (7 * granu - 7 * ws.length) ' ') ++ "  ".toList) ++
  (ws.flatMap HexWord.shown ++ ['\n'])

theorem length_text (ws : List HexWord) : (ws.flatMap HexWord.text).length = 7 * ws.length := by
  induction ws with
  | nil => rfl
  | cons w ws ih =>
    have htext : w.text.length = 7 := rfl
    rw [List.flatMap_cons, List.length_append, ih, htext, List.length_cons, Nat.mul_succ,
      Nat.add_comm]

theorem formatLeft_eq {text : List Char} {size : Int} (h0 : 0 ≤ size) (hmax : size ≤ maxsize) :
    formatLeft text size = some (text ++ List.replicate (size.toNat - text.length) ' ') :=
  if_neg (by omega)

/-- **One round prints one row**, of at most `granu` words. -/
theorem dumpRound_eq {granu : Nat} (hmax : 7 * (granu : Int) ≤ maxsize) (hne : ws ≠ [])
    (offset : Nat) (behind output : List Char) :
    dumpRound (toolText ws ++ behind) granu ⟨offset, 4 * ws.length - 1, output⟩ =
      .next ⟨(offset + granu : Nat), 4 * (ws.drop granu).length - 1,
        output ++ rowText granu offset (ws.take granu)⟩ := by
  have hpos : 0 < ws.length := List.length_pos_iff.mpr hne
  have hwidth : (("XX XX  ".toList.length : Nat) : Int) * granu = 7 * granu := rfl
  have hnat : (7 * (granu : Int)).toNat = 7 * granu := by omega
  unfold dumpRound
  dsimp only
  rw [if_pos (by omega), Int.toNat_natCast, rowLoop_eq, hwidth, Option.bind_eq_bind,
    Option.bind_some, formatLeft_eq (by omega) hmax, hnat]
  simp only [List.nil_append, Option.bind_eq_bind, Option.bind_some, Option.pure_def, length_text,
    rowText, List.append_assoc, Int.natCast_add]

/-- **The table is a list of rows**: none is empty or too long, and their words are the words of
    the tool, each at its place. -/
theorem dumpLoop_rows {granu : Nat} (hg : 0 < granu) (hmax : 7 * (granu : Int) ≤ maxsize)
    (n : Nat) : ∀ (ws : List HexWord) (offset : Nat) (behind output : List Char),
    ws.length ≤ n → ∃ (rounds : Nat) (rows : List (Nat × List HexWord)),
      runLoop (dumpRound (toolText ws ++ behind) granu) rounds
        ⟨offset, 4 * ws.length - 1, output⟩ =
          .done (output ++ rows.flatMap fun r => rowText granu r.1 r.2) ∧
      (∀ r ∈ rows, r.2 ≠ [] ∧ r.2.length ≤ granu) ∧
      (rows.flatMap fun r => r.2.zipIdx r.1) = ws.zipIdx offset := by
  have hempty : ∀ (offset : Nat) (behind output : List Char),
      ∃ (rounds : Nat) (rows : List (Nat × List HexWord)),
      runLoop (dumpRound (toolText [] ++ behind) granu) rounds
        ⟨offset, 4 * ([] : List HexWord).length - 1, output⟩ =
          .done (output ++ rows.flatMap fun r => rowText granu r.1 r.2) ∧
      (∀ r ∈ rows, r.2 ≠ [] ∧ r.2.length ≤ granu) ∧
      (rows.flatMap fun r => r.2.zipIdx r.1) = ([] : List HexWord).zipIdx offset := by
    intro offset behind output
    refine ⟨1, [], ?_, fun r hr => absurd hr List.not_mem_nil, rfl⟩
    rw [List.flatMap_nil, List.append_nil]
    exact loop_leave rfl 0
  induction n with
  | zero =>
    intro ws offset behind output hlen
    obtain rfl := List.eq_nil_of_length_eq_zero (Nat.le_zero.mp hlen)
    exact hempty offset behind output
  | succ n ih =>
    intro ws offset behind output hlen
    by_cases hne : ws = []
    · subst hne
      exact hempty offset behind output
    · -- the first row, and the table of the words behind it
      have hpos : 0 < ws.length := List.length_pos_iff.mpr hne
      have hsplit : toolText ws ++ behind =
          toolText (ws.drop granu) ++ (toolText (ws.take granu) ++ behind) := by
        have happ : toolText ws = toolText (ws.drop granu) ++ toolText (ws.take granu) := by
          conv_lhs => rw [← List.take_append_drop granu ws]
          unfold toolText
          rw [List.reverse_append, List.flatMap_append]
        rw [happ, List.append_assoc]
      have hdrop : (ws.drop granu).length ≤ n := by
        rw [List.length_drop]
        omega
      obtain ⟨rounds, rows, hrun, hrows, hcells⟩ := ih (ws.drop granu) (offset + granu)
        (toolText (ws.take granu) ++ behind) (output ++ rowText granu offset (ws.take granu)) hdrop
      refine ⟨rounds + 1, (offset, ws.take granu) :: rows, ?_, ?_, ?_⟩
      · rw [loop_next (dumpRound_eq hmax hne offset behind output), hsplit, hrun,
          List.flatMap_cons, List.append_assoc]
      · refine List.forall_mem_cons.mpr ⟨⟨?_, ?_⟩, hrows⟩
        · refine List.length_pos_iff.mp ?_
          rw [List.length_take]
          omega
        · exact List.length_take_le granu ws
      · rw [List.flatMap_cons, hcells]
        by_cases hall : ws.length ≤ granu
        · rw [List.take_of_length_le hall, List.drop_of_length_le hall, List.zipIdx_nil,
            List.append_nil]
        · have htake : (ws.take granu).length = granu := by
            rw [List.length_take]
            omega
          conv_rhs => rw [← List.take_append_drop granu ws, List.zipIdx_append, htake]

/-! ## 6. What the table says -/

theorem dropWhile_blanks (k : Nat) (cs : List Char) :
    (List.replicate k ' ' ++ cs).dropWhile (fun c => c == ' ') =
      cs.dropWhile fun c => c == ' ' := by
  refine List.dropWhile_append_of_pos fun c hc => ?_
  rw [List.eq_of_mem_replicate hc]
  rfl

/-- A number is not blank. -/
theorem dropWhile_hex (n : Nat) (cs : List Char) :
    (hex n ++ cs).dropWhile (fun c => c == ' ') = hex n ++ cs := by
  cases hdigits : hex n with
  | nil =>
    have hne : hex n ≠ [] := by
      unfold hex
      rw [ne_eq, List.map_eq_nil_iff]
      exact Nat.toDigits_ne_nil
    exact absurd hdigits hne
  | cons c ds =>
    have hc := (Bin2mif.hex_value n).1 c (by rw [hdigits]; exact List.mem_cons_self)
    have hblank : (c == ' ') = false := by
      refine beq_eq_false_iff_ne.mpr fun h => ?_
      rw [h] at hc
      exact absurd hc (by decide)
    rw [List.cons_append, List.dropWhile_cons, hblank]
    rfl

/-- A column ends at the first blank where a word would be. -/
theorem readWords_blank (cs : List Char) : readWords (' ' :: cs) = [] := by
  unfold readWords
  split
  · rename_i heq
    obtain ⟨rfl, -⟩ := List.cons.inj heq
    split
    · have hnone : ∀ c, int16 ' ' c = none := fun c => rfl
      rw [hnone]
    · rfl
  · rfl

theorem readWords_text (ws : List HexWord) (k : Nat) :
    readWords (ws.flatMap HexWord.text ++ List.replicate k ' ') = ws.map HexWord.value := by
  induction ws with
  | nil =>
    cases k with
    | zero => rfl
    | succ k => exact readWords_blank (List.replicate k ' ')
  | cons w ws ih =>
    have htext : (w :: ws).flatMap HexWord.text ++ List.replicate k ' ' =
        w.c3 :: w.c2 :: ' ' :: w.c1 :: w.c0 :: ' ' :: ' ' ::
          (ws.flatMap HexWord.text ++ List.replicate k ' ') := by
      rw [List.flatMap_cons, List.append_assoc]
      rfl
    rw [htext, readWords, if_pos ⟨rfl, rfl, rfl⟩, w.int16_high, w.int16_low]
    dsimp only
    rw [ih]
    rfl

theorem shown_ne (v : Nat) : shown v ≠ '\n' := by
  unfold shown
  split
  · rename_i hprint
    intro h
    rw [h] at hprint
    exact absurd hprint (by decide)
  · decide

/-- The end of a row. -/
theorem dropWhile_line (ws : List HexWord) (rest : List Char) :
    (("  ".toList ++ ws.flatMap HexWord.shown) ++ '\n' :: rest).dropWhile (fun c => c != '\n') =
      '\n' :: rest := by
  rw [List.dropWhile_append_of_pos]
  · rfl
  · intro c hc
    rcases List.mem_append.mp hc with hc | hc
    · have hblank : c = ' ' := by simpa using hc
      rw [hblank]
      rfl
    · obtain ⟨w, -, hc⟩ := List.mem_flatMap.mp hc
      refine bne_iff_ne.mpr ?_
      rcases List.mem_pair.mp hc with rfl | rfl
      · exact shown_ne w.high
      · exact shown_ne w.low

theorem format4X_nat (n : Nat) :
    format4X n = List.replicate (4 - (hex n).length) ' ' ++ hex n := by
  unfold format4X
  rw [if_neg (by omega)]
  rfl

/-- **A row says its label and its words.** -/
theorem readRow_row {granu : Nat} (hlen : ws.length ≤ granu) (label : Nat) (rest : List Char) :
    readRow granu (rowText granu label ws ++ rest) =
      some (⟨label, ws.map HexWord.value⟩, rest) := by
  obtain ⟨column, hcolumn⟩ : ∃ column, column =
      ws.flatMap HexWord.text ++ List.replicate (7 * granu - 7 * ws.length) ' ' := ⟨_, rfl⟩
  have hwidth : column.length = 7 * granu := by
    rw [hcolumn, List.length_append, length_text, List.length_replicate]
    omega
  have htext : rowText granu label ws ++ rest =
      List.replicate (4 - (hex label).length) ' ' ++ (hex label ++ ("    ".toList ++ (column ++
        (("  ".toList ++ ws.flatMap HexWord.shown) ++ '\n' :: rest)))) := by
    rw [rowText, format4X_nat, hcolumn]
    simp only [List.append_assoc, List.cons_append, List.nil_append]
  rw [htext, readRow, dropWhile_blanks, dropWhile_hex, readNumber_hex rfl]
  dsimp only
  rw [expect_append, Option.bind_eq_bind, Option.bind_some, List.take_left' hwidth,
    List.drop_left' hwidth, dropWhile_line, hcolumn, readWords_text]
  rfl

theorem rowText_pos (granu label : Nat) (ws : List HexWord) :
    0 < (rowText granu label ws).length := by
  have hend : (ws.flatMap HexWord.shown ++ ['\n']).length =
      (ws.flatMap HexWord.shown).length + 1 := List.length_append
  rw [rowText, List.length_append, hend]
  omega

theorem readRows_rows {granu : Nat} : ∀ {rows : List (Nat × List HexWord)} {n : Nat},
    (∀ r ∈ rows, r.2.length ≤ granu) → rows.length ≤ n →
    readRows granu n (rows.flatMap fun r => rowText granu r.1 r.2) =
      some (rows.map fun r => ⟨r.1, r.2.map HexWord.value⟩) := by
  intro rows
  induction rows with
  | nil =>
    intro n _ _
    cases n with
    | zero => rfl
    | succ n => rfl
  | cons r rows ih =>
    intro n hrows hn
    obtain ⟨hr, hrows⟩ := List.forall_mem_cons.mp hrows
    obtain ⟨n, rfl⟩ := Nat.exists_eq_add_one_of_ne_zero (Nat.ne_of_gt (Nat.zero_lt_of_lt hn))
    have hread := readRow_row hr r.1 (rows.flatMap fun r => rowText granu r.1 r.2)
    rw [List.flatMap_cons]
    cases htext : rowText granu r.1 r.2 ++ rows.flatMap fun r => rowText granu r.1 r.2 with
    | nil =>
      have hpos := rowText_pos granu r.1 r.2
      rw [(List.append_eq_nil_iff.mp htext).1] at hpos
      exact absurd hpos (Nat.lt_irrefl 0)
    | cons c cs =>
      rw [htext] at hread
      rw [readRows, hread, Option.bind_eq_bind, Option.bind_some]
      dsimp only
      rw [ih hrows (Nat.le_of_succ_le_succ hn)]
      rfl

theorem length_le_rows (granu : Nat) (rows : List (Nat × List HexWord)) :
    rows.length ≤ (rows.flatMap fun r => rowText granu r.1 r.2).length := by
  induction rows with
  | nil => exact Nat.le_refl 0
  | cons r rows ih =>
    have hpos := rowText_pos granu r.1 r.2
    rw [List.flatMap_cons, List.length_append, List.length_cons]
    omega

/-- The words of the rows that are read, at their places. -/
theorem cells_rows (rows : List (Nat × List HexWord)) :
    ((rows.map fun r => (⟨r.1, r.2.map HexWord.value⟩ : Row)).flatMap Row.cells) =
      (rows.flatMap fun r => r.2.zipIdx r.1).map fun x => (x.2, x.1.value) := by
  rw [List.flatMap_map, List.map_flatMap]
  refine congrArg (fun f => List.flatMap f rows) (funext fun r => ?_)
  unfold Row.cells
  dsimp only
  rw [List.zipIdx_map, List.map_map]
  rfl

theorem cells_range {ws : List HexWord} {offset len : Nat} {mem : Nat → BitVec 16}
    (h : ws.map HexWord.value = (List.range len).map fun k => (mem (offset + k)).toNat) :
    ((ws.zipIdx offset).map fun x => (x.2, x.1.value)) =
      (List.range len).map fun k => (offset + k, (mem (offset + k)).toNat) := by
  have hlen : ws.length = len := by
    have hlengths := congrArg List.length h
    rwa [List.length_map, List.length_map, List.length_range] at hlengths
  refine List.ext_getElem ?_ fun i hi hi' => ?_
  · rw [List.length_map, List.length_map, List.length_zipIdx, List.length_range, hlen]
  · rw [List.length_map, List.length_range] at hi'
    have hvalue : (ws.map HexWord.value)[i]? = some (mem (offset + i)).toNat := by
      rw [h, List.getElem?_map, List.getElem?_range hi']
      rfl
    rw [List.getElem?_map, List.getElem?_eq_getElem (by omega)] at hvalue
    simp only [List.getElem_map, List.getElem_zipIdx, List.getElem_range]
    rw [← Option.some.inj hvalue, Nat.add_comm]

/-! ## 7. The request -/

theorem roundFloat_small {m : Nat} (h : m < 2 ^ 53) : roundFloat m = m := by
  have hlog : m.log2 + 1 - 53 = 0 := by
    by_cases h0 : m = 0
    · subst h0
      decide
    · have hlt := (Nat.log2_lt h0).mpr h
      omega
  unfold roundFloat
  rw [hlog]
  simp [Nat.mod_one]

/-- The sizes that ask for words are halved exactly. -/
theorem half_eq {size : Int} (h0 : 0 ≤ size) (h : size ≤ 32768) : half size = some (size / 2) := by
  obtain ⟨m, rfl⟩ := Int.eq_ofNat_of_zero_le h0
  have hm : m < 2 ^ 53 := by omega
  have hmax : ¬ 2 ^ 1025 ≤ m := by
    have hpow : ∀ e, 53 ≤ e → 2 ^ 53 ≤ 2 ^ e := fun e he => Nat.pow_le_pow_right (by decide) he
    exact Nat.not_le_of_lt (Nat.lt_of_lt_of_le hm (hpow 1025 (by decide)))
  unfold half
  dsimp only
  rw [Int.natAbs_natCast, roundFloat_small hm, if_neg hmax]
  refine congrArg some ?_
  rcases Nat.eq_zero_or_pos m with rfl | hpos
  · rfl
  · rw [Int.sign_natCast_of_ne_zero (Nat.ne_of_gt hpos), Int.one_mul]
    rfl

/-- Other sizes ask for none. -/
theorem half_nonpos {size len : Int} (h : size < 2) (hhalf : half size = some len) : len ≤ 0 := by
  by_cases h0 : 0 ≤ size
  · rw [half_eq h0 (by omega)] at hhalf
    have hlen := Option.some.inj hhalf
    omega
  · unfold half at hhalf
    dsimp only at hhalf
    split at hhalf
    · cases hhalf
    · rw [Int.sign_eq_neg_one_of_neg (Int.not_le.mp h0)] at hhalf
      have hlen := Option.some.inj hhalf
      omega

/-- **What is asked for**: nothing, or half the truncated size. -/
theorem dumpRequest_words {offset : Nat} {size : Int} (hsize : 2 ≤ size)
    (hoffset : offset ≤ 32766) :
    ∃ len : Nat, dumpRequest offset size = some ⟨offset, len⟩ ∧ 0 < len ∧
      (offset + len ≤ 16384 ↔ offset ≤ 1 ∨ offset + size / 2 ≤ 16384) := by
  have htrunc : 2 ≤ truncated offset size ∧ truncated offset size ≤ 32768 ∧
      (truncated offset size = size ∧ offset + size ≤ 32768 ∨
        truncated offset size = 32768 - offset ∧ 32768 < offset + size) := by
    unfold truncated
    split <;> omega
  obtain ⟨h2, hmax, hcases⟩ := htrunc
  refine ⟨(truncated offset size / 2).toNat, ?_, by omega, by omega⟩
  unfold dumpRequest
  rw [half_eq (by omega) hmax, Option.bind_eq_bind, Option.bind_some]
  refine congrArg some ?_
  rw [Request.mk.injEq]
  exact ⟨rfl, by omega⟩

theorem dumpRequest_none {offset : Nat} {size : Int} {req : Request}
    (h : size < 2 ∨ 32766 < offset) (hreq : dumpRequest offset size = some req) :
    req.startAddress = offset ∧ req.wordCount ≤ 0 := by
  have htrunc : truncated offset size < 2 := by
    unfold truncated
    split <;> omega
  unfold dumpRequest at hreq
  rw [Option.bind_eq_bind, Option.bind_eq_some_iff] at hreq
  obtain ⟨len, hlen, hreq⟩ := hreq
  cases hreq
  exact ⟨rfl, half_nonpos htrunc hlen⟩

/-! ## 8. The result -/

/-- A width that the format does not take ends the loop with an exception. -/
theorem dumpRound_fault {ram : List Char} {granu : Int} {s : DumpVars} (hi : s.i > 2)
    (hwidth : 7 * granu < 0 ∨ maxsize < 7 * granu) : dumpRound ram granu s = .fault := by
  have hnone : ∀ line, formatLeft line ("XX XX  ".toList.length * granu) = none :=
    fun line => if_pos hwidth
  unfold dumpRound
  rw [if_pos hi]
  cases rowLoop ram granu.toNat { i := s.i, line := [], hexValues := [] } with
  | none => rfl
  | some r =>
    dsimp only
    rw [Option.bind_eq_bind, Option.bind_some, hnone]
    rfl

/-- Without a word in a row the loop is not left. -/
theorem dumpRound_zero (ram : List Char) {s : DumpVars} (hi : s.i > 2) :
    ∃ s', dumpRound ram 0 s = .next s' ∧ s'.i = s.i := by
  unfold dumpRound
  rw [if_pos hi]
  exact ⟨_, rfl, rfl⟩

/-- The table needs a granularity that the format takes, and words in its rows. -/
theorem ramFormat_granu {ram : List Char} {offset granu : Int} {len : Nat} {text : List Char}
    (hlen : 0 < len) (h : Returns (ramFormat ram offset len granu) text) :
    1 ≤ granu ∧ 7 * granu ≤ maxsize := by
  obtain ⟨rounds, hrun⟩ := h
  have hi : (⟨offset, (len : Int) * 4 - 1, []⟩ : DumpVars).i > 2 := by
    dsimp only
    omega
  have hwidth : ¬ (7 * granu < 0 ∨ maxsize < 7 * granu) := by
    intro hwidth
    cases rounds with
    | zero => cases hrun
    | succ rounds =>
      unfold ramFormat at hrun
      rw [runLoop, dumpRound_fault hi hwidth] at hrun
      cases hrun
  obtain ⟨h0, hmax⟩ := not_or.mp hwidth
  refine ⟨?_, Int.not_lt.mp hmax⟩
  by_contra hzero
  obtain rfl : granu = 0 := by omega
  refine loop_goes_on (P := fun s => s.i > 2) (fun s hs => ?_) hi rounds text hrun
  obtain ⟨s', hr, hi'⟩ := dumpRound_zero ram hs
  exact ⟨s', hr, lt_of_lt_of_eq hs hi'.symm⟩

/-- **The table of a granularity that it takes.** -/
theorem ramFormat_shows {granu : Int} (hg : 1 ≤ granu) (hmax : 7 * granu ≤ maxsize)
    (ws : List HexWord) (offset : Nat) (rest : List Char) :
    ∃ text, Returns (ramFormat (toolText ws ++ rest) offset ws.length granu) text ∧
      ∃ rows, readDump granu.toNat text = some rows ∧ (∀ r ∈ rows, r.words ≠ []) ∧
        rows.flatMap Row.cells = (ws.zipIdx offset).map fun x => (x.2, x.1.value) := by
  obtain ⟨g, rfl⟩ := Int.eq_ofNat_of_zero_le (show 0 ≤ granu by omega)
  obtain ⟨rounds, rows, hrun, hrows, hcells⟩ :=
    dumpLoop_rows (show 0 < g by omega) hmax ws.length ws offset rest [] (Nat.le_refl _)
  refine ⟨rows.flatMap fun r => rowText g r.1 r.2, ⟨rounds, ?_⟩,
    rows.map fun r => ⟨r.1, r.2.map HexWord.value⟩, ?_, ?_, ?_⟩
  · unfold ramFormat
    rw [Int.mul_comm]
    exact hrun
  · exact readRows_rows (fun r hr => (hrows r hr).2) (length_le_rows g rows)
  · intro r hr
    obtain ⟨r', hr', rfl⟩ := List.mem_map.mp hr
    exact fun h => (hrows r' hr').1 (List.map_eq_nil_iff.mp h)
  · rw [cells_rows, hcells]

/-- No words, no rows. -/
theorem ramFormat_none {ram : List Char} {offset len granu : Int} (hlen : len ≤ 0) :
    Returns (ramFormat ram offset len granu) [] := by
  have hi : ¬ len * 4 - 1 > 2 := by omega
  have hround : dumpRound ram granu ⟨offset, len * 4 - 1, []⟩ = .leave [] := if_neg hi
  exact ⟨1, loop_leave hround 0⟩

theorem dumpRight_none {offset : Nat} {size : Int} (h : size < 2 ∨ 32766 < offset) (granu : Int) :
    DumpRight offset size granu := by
  intro req hreq
  obtain ⟨hstart, hcount⟩ := dumpRequest_none h hreq
  have hrange : List.range req.wordCount.toNat = [] := by
    rw [Int.toNat_of_nonpos hcount]
    rfl
  refine ⟨fun k hk => by omega, fun mem ws rest hws => ?_⟩
  refine ⟨[], ramFormat_none hcount, [], rfl, fun r hr => absurd hr List.not_mem_nil, ?_⟩
  rw [hrange]
  rfl

theorem dumpRight_words {offset : Nat} {size granu : Int} (hsize : 2 ≤ size)
    (hoffset : offset ≤ 32766) (hend : offset ≤ 1 ∨ offset + size / 2 ≤ 16384)
    (hg : 1 ≤ granu) (hmax : 7 * granu ≤ maxsize) : DumpRight offset size granu := by
  intro req hreq
  obtain ⟨len, hreq', -, hin⟩ := dumpRequest_words hsize hoffset
  cases hreq'.symm.trans hreq
  have hin' := hin.mpr hend
  refine ⟨fun k hk => by dsimp only at hk ⊢; omega, fun mem ws rest hws => ?_⟩
  rw [Int.toNat_natCast] at hws ⊢
  have hlen : ws.length = len := by
    have hlengths := congrArg List.length hws
    rwa [List.length_map, List.length_map, List.length_range] at hlengths
  obtain ⟨text, htext, rows, hread, hne, hcells⟩ := ramFormat_shows hg hmax ws offset rest
  rw [hlen] at htext
  exact ⟨text, htext, rows, hread, hne, hcells.trans (cells_range hws)⟩

/-- A right dump of some words ends within the RAM, and its table ends. -/
theorem DumpRight.ends {offset : Nat} {size granu : Int} (h : DumpRight offset size granu)
    (hsize : 2 ≤ size) (hoffset : offset ≤ 32766) :
    (offset ≤ 1 ∨ offset + size / 2 ≤ 16384) ∧ 1 ≤ granu ∧ 7 * granu ≤ maxsize := by
  obtain ⟨len, hreq, hpos, hin⟩ := dumpRequest_words hsize hoffset
  obtain ⟨hram, htable⟩ := h _ hreq
  have hlast := (hram (len - 1) (by dsimp only; omega)).2
  have hend : offset + len ≤ 16384 := by
    dsimp only at hlast
    omega
  have hzeros : (List.replicate len HexWord.zero).map HexWord.value =
      (List.range (len : Int).toNat).map fun _ => (0 : BitVec 16).toNat := by
    rw [Int.toNat_natCast, List.map_replicate, List.map_const', List.length_range]
    rfl
  obtain ⟨text, htext, -⟩ := htable (fun _ => 0) (List.replicate len HexWord.zero) [] hzeros
  exact ⟨hin.mp hend, ramFormat_granu hpos htext⟩

/-- **When a dump is right**: where nothing is asked for, or where what is asked for ends within
    the RAM and the granularity is one the format takes, with a word in each row. -/
theorem dump_right_iff (offset : Nat) (size granu : Int) : DumpRight offset size granu ↔
    (size < 2 ∨ 32766 < offset) ∨
    (offset ≤ 1 ∨ offset + size / 2 ≤ 16384) ∧ 1 ≤ granu ∧ 7 * granu ≤ maxsize := by
  by_cases hnone : size < 2 ∨ 32766 < offset
  · exact iff_of_true (dumpRight_none hnone granu) (.inl hnone)
  · obtain ⟨hsize, hoffset⟩ := not_or.mp hnone
    constructor
    · intro h
      exact .inr (h.ends (Int.not_lt.mp hsize) (Nat.not_lt.mp hoffset))
    · rintro (h | ⟨hend, hg, hmax⟩)
      · exact absurd h hnone
      · exact dumpRight_words (Int.not_lt.mp hsize) (Nat.not_lt.mp hoffset) hend hg hmax

/-- The second half of the addresses that the truncation lets through is not in the RAM. -/
theorem dump_wrong : ¬ DumpRight 16384 16384 8 := by
  intro h
  obtain ⟨len, hreq, hpos, -⟩ :=
    dumpRequest_words (show (2 : Int) ≤ 16384 by decide) (show 16384 ≤ 32766 by decide)
  have hfirst : (16384 : Int) + 0 < 16384 := ((h _ hreq).1 0 (Int.natCast_pos.mpr hpos)).2
  exact absurd hfirst (by decide)

/-- What `dump_ram` prints where the tool does not fail. -/
theorem dumpRam_prints {quartusStp : Nat → Request → Except (List Char) (List Char)}
    {offset size granu loop : Int} {req : Request} {output text : List Char}
    (hreq : dumpRequest offset size = some req) (hstp : quartusStp 0 req = .ok output)
    (htext : Returns (ramFormat (quartusFilter output) req.startAddress req.wordCount granu) text)
    (hloop : loop < 0) :
    Returns (dumpRam quartusStp offset size granu loop) (warning offset size ++ text) := by
  obtain ⟨rounds, hrun⟩ := htext
  refine ⟨rounds + 1, ?_⟩
  unfold dumpRam
  rw [hreq]
  dsimp only
  rw [dumpLoop, hstp]
  dsimp only
  rw [Outcome.bind_done hrun, if_pos hloop]

example : (ramFormat "414200AB1234".toList 16 3 2 10).bind (fun text => .done (readDump 2 text)) =
    .done (some [⟨16, [0x1234, 0x00AB]⟩, ⟨18, [0x4142]⟩]) := by decide

end LsePc.Tools.RamDump
