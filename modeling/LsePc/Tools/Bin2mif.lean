/-
  File:      LsePc/Tools/Bin2mif.lean
  Subject:   bin2mif (sw/tools/bin2mif): binary files into the memory image that the FPGA tools
             read.

  * `Opt`, `Conf`, `loadFile`, `loadFiles`, `outputMif`: the OCaml program. An `int` has 63
    bits; `none` is an exception that nothing catches;
  * `readMif`: the addresses and the values of a text;
  * `image`: the reference, the first input on the command line that covers a word;
  * **result** (`bin2mif_image`): the text has every address once, in order, with the value of
    the image.

  The output file of `-o` is not modelled, it must not be one of the inputs.
-/
import Mathlib.Data.List.Basic
import Mathlib.Data.Vector.Basic

namespace LsePc.Tools.Bin2mif

/-! ## 1. The command line -/

inductive Radix where
  | HEX
  | BIN
  deriving DecidableEq, Repr

/-- An `int` of OCaml. -/
abbrev Word := BitVec 63

/-- An argument. -/
inductive Opt where
  | b (x : Word)
  | i (file : String) (addr offset : Word)
  | anon (file : String)
  deriving DecidableEq, Repr

structure Conf where
  defaultValue : Nat
  d : Nat
  baseAddr : Word
  input : List String
  laddr : List Word
  loffset : List Word
  deriving Repr

def conf : Conf :=
  { defaultValue := 0xF4F4, baseAddr := 0xFF8000, d := 16384, input := [], laddr := []
    loffset := [] }

/-- What the table `args` says for an argument. -/
def Conf.arg (conf : Conf) : Opt → Conf
  | .b x => { conf with baseAddr := x }
  | .i f a o =>
    { conf with input := f :: conf.input, laddr := a :: conf.laddr, loffset := o :: conf.loffset }
  | .anon _ => conf

/-! ## 2. The image -/

/-- `mif`; the depth is the one of the array. -/
structure Mif (depth : Nat) where
  width : Nat
  addrRadix : Radix
  dataRadix : Radix
  mem : Vector Nat depth

section
variable {depth : Nat}

/-- `mif.mem.(addr) <- v`. -/
def Mif.store (mif : Mif depth) (addr : Word) (v : Nat) : Option (Mif depth) :=
  if h : addr.toNat < depth then some { mif with mem := mif.mem.set addr.toNat v h } else none

/-- `load_file`; the channel is what is left of the file. -/
def loadFile : List UInt8 → Word → Mif depth → Option (Mif depth)
  -- no byte is left for the low half
  | [], _, mif => some mif
  -- no byte is left for the high half, nor for the next word
  | [lsb], addr, mif =>
    if addr.toInt < depth then mif.store addr (0 <<< 8 ||| lsb.toNat) else some mif
  | lsb :: msb :: ch, addr, mif =>
    if addr.toInt < depth then do
      let mif ← mif.store addr (msb.toNat <<< 8 ||| lsb.toNat)
      loadFile ch (addr + 1) mif
    else some mif

/-- `seek_in`; behind the end there is no byte. -/
def seekIn (ch : List UInt8) (o : Word) : Option (List UInt8) :=
  if o.toInt < 0 then none else some (ch.drop o.toNat)

section
variable (fs : String → Option (List UInt8))

/-- `load_files`; `fs` are the files that can be opened. -/
def loadFiles (baseAddr : Word) :
    List String → List Word → List Word → Mif depth → Option (Mif depth)
  | f :: fts, a :: ats, o :: ots, mif => do
    let ch ← fs f
    let ch ← seekIn ch o
    let mif ← loadFile ch ((a - baseAddr) >>> 1) mif
    loadFiles baseAddr fts ats ots mif
  | _, _, _, mif => some mif

end

/-- `%d`. -/
def dec (n : Nat) : List Char := Nat.toDigits 10 n

/-- `%X`. -/
def hex (n : Nat) : List Char := (Nat.toDigits 16 n).map Char.toUpper

def radix2str : Radix → List Char
  | .HEX => "HEX".toList
  | .BIN => "BIN".toList

/-- A line of the content. -/
def entry (i v : Nat) : List Char :=
  "\t".toList ++ hex i ++ ": ".toList ++ hex v ++ ";\n".toList

/-- What stands above the content. -/
def header (width depth : Nat) (addrRadix dataRadix : Radix) : List Char :=
  "WIDTH=".toList ++ dec width ++ ";\nDEPTH=".toList ++ dec depth ++ ";\n\n".toList ++
  "ADDRESS_RADIX=".toList ++ radix2str addrRadix ++ ";\nDATA_RADIX=".toList ++
  radix2str dataRadix ++ ";\n\n".toList ++ "CONTENT BEGIN\n".toList

def outputMif (mif : Mif depth) : List Char :=
  header mif.width depth mif.addrRadix mif.dataRadix ++
  ((List.finRange depth).flatMap fun i : Fin depth => entry i.val (mif.mem.get i)) ++
  "END;\n".toList

end

def main (fs : String → Option (List UInt8)) (argv : List Opt) : Option (List Char) := do
  let conf := argv.foldl Conf.arg conf
  let mif : Mif conf.d :=
    { width := 16, addrRadix := .HEX, dataRadix := .HEX
      mem := Vector.replicate conf.d conf.defaultValue }
  let mif ← loadFiles fs conf.baseAddr conf.input conf.laddr conf.loffset mif
  pure (outputMif mif)

/-! ## 3. The reference -/

/-- An input: the bytes from its offset on, and where they are placed. -/
structure Input where
  bytes : List UInt8
  addr : Int
  deriving Repr

/-- The byte at an address. -/
def Input.byte (x : Input) (a : Int) : Option UInt8 :=
  if x.addr ≤ a then x.bytes[(a - x.addr).toNat]? else none

/-- It has a byte of the word at the even address `a`. -/
def Input.covers (x : Input) (a : Int) : Bool := (x.byte a).isSome || (x.byte (a + 1)).isSome

/-- The word: the low half is at the even address. A byte that there is not is 0. -/
def Input.word (x : Input) (a : Int) : Nat :=
  ((x.byte a).getD 0).toNat + 256 * ((x.byte (a + 1)).getD 0).toNat

/-- The address of the word `i` of a RAM: the words are at the even addresses from its base on. -/
def wordAddr (base : Int) (i : Nat) : Int := 2 * ((base + 1) / 2 + i)

/-- **The image**: the first input that covers the word. -/
def image (base : Int) (inputs : List Input) (i : Nat) : Nat :=
  match inputs.find? fun x => x.covers (wordAddr base i) with
  | some x => x.word (wordAddr base i)
  | none => conf.defaultValue

/-- The arguments of the options `-b`. -/
def bases (argv : List Opt) : List Word :=
  argv.filterMap fun
    | .b x => some x
    | _ => none

/-- The RAM base address: the last one given. -/
def ramBase (argv : List Opt) : Word := (bases argv).getLastD conf.baseAddr

/-- The arguments of the options `-i`. -/
def loads (argv : List Opt) : List (String × Word × Word) :=
  argv.filterMap fun
    | .i f a o => some (f, a, o)
    | _ => none

section
variable (fs : String → Option (List UInt8))

def input (t : String × Word × Word) : Input :=
  { bytes := ((fs t.1).getD []).drop t.2.2.toNat, addr := t.2.1.toInt }

/-- The inputs, in the order of the command line. -/
def inputs (argv : List Opt) : List Input := (loads argv).map (input fs)

/-- The file can be opened, the address is even and not below the RAM base address, and the
    offset is not negative. -/
structure Fits (base : Word) (t : String × Word × Word) : Prop where
  opened : (fs t.1).isSome = true
  even : t.2.1.toInt % 2 = 0
  base : base.toInt ≤ t.2.1.toInt
  offset : 0 ≤ t.2.2.toInt

end

/-- The value of a digit. -/
def digit (c : Char) : Option Nat :=
  if '0' ≤ c ∧ c ≤ '9' then some (c.toNat - 48)
  else if 'A' ≤ c ∧ c ≤ 'F' then some (c.toNat - 55)
  else none

/-- The number at the start of a text, and what stands behind it. -/
def readNumber (radix : Nat) : List Char → Nat → Nat × List Char
  | [], n => (n, [])
  | c :: cs, n =>
    match digit c with
    | some d => readNumber radix cs (radix * n + d)
    | none => (n, c :: cs)

/-- What stands behind `p`, from there on where `p` stands first. -/
def behind (p : List Char) : List Char → Option (List Char)
  | [] => none
  | c :: cs => if p.isPrefixOf (c :: cs) then some ((c :: cs).drop p.length) else behind p cs

/-- What stands behind `p`, where the text starts with it. -/
def expect (p cs : List Char) : Option (List Char) :=
  if p.isPrefixOf cs then some (cs.drop p.length) else none

/-- The line at the start of a text. -/
def readEntry (cs : List Char) : Option ((Nat × Nat) × List Char) := do
  let cs ← expect "\t".toList cs
  let (i, cs) := readNumber 16 cs 0
  let cs ← expect ": ".toList cs
  let (v, cs) := readNumber 16 cs 0
  let cs ← expect ";\n".toList cs
  pure ((i, v), cs)

/-- At most `n` lines. -/
def readEntries : Nat → List Char → List (Nat × Nat)
  | 0, _ => []
  | n + 1, cs =>
    match readEntry cs with
    | some (e, cs) => e :: readEntries n cs
    | none => []

/-- **What a text says**: the depth, then the addresses and their values, in order. -/
def readMif (text : List Char) : Option (Nat × List (Nat × Nat)) := do
  let cs ← behind "DEPTH=".toList text
  let (depth, cs) := readNumber 10 cs 0
  let cs ← behind "CONTENT BEGIN\n".toList cs
  pure (depth, readEntries cs.length cs)

/-! ## 4. The text -/

theorem digit_digitChar : ∀ d < 16, digit (Nat.digitChar d).toUpper = some d := by decide

/-- The digits of a number, one by one. -/
theorem readNumber_digits {radix : Nat} {ds : List Char} (h : ∀ c ∈ ds, (digit c).isSome = true)
    (rest : List Char) (n : Nat) : readNumber radix (ds ++ rest) n =
      readNumber radix rest (ds.foldl (fun n c => radix * n + (digit c).getD 0) n) := by
  induction ds generalizing n with
  | nil => rfl
  | cons c ds ih =>
    obtain ⟨hc, hds⟩ := List.forall_mem_cons.mp h
    obtain ⟨d, hd⟩ := Option.isSome_iff_exists.mp hc
    rw [List.cons_append, readNumber, hd, List.foldl_cons, hd]
    exact ih hds _

/-- The digits of `%X`. -/
theorem hex_value (v : Nat) : (∀ c ∈ hex v, (digit c).isSome = true) ∧
    (hex v).foldl (fun n c => 16 * n + (digit c).getD 0) 0 = v := by
  induction v using Nat.strongRecOn with
  | ind v ih =>
    unfold hex at *
    rw [Nat.toDigits_eq_if (by decide)]
    split
    · rename_i hlt
      have hd := digit_digitChar v hlt
      rw [List.map_cons, List.map_nil, List.foldl_cons, List.foldl_nil, hd]
      refine ⟨fun c hc => ?_, Nat.zero_add v⟩
      rw [List.mem_singleton.mp hc, hd]
      rfl
    · rename_i hge
      have hd := digit_digitChar (v % 16) (Nat.mod_lt v (by decide))
      obtain ⟨hdigits, hvalue⟩ := ih (v / 16) (by omega)
      rw [List.map_append, List.map_cons, List.map_nil, List.foldl_append, hvalue, List.foldl_cons,
        List.foldl_nil, hd]
      refine ⟨fun c hc => ?_, Nat.div_add_mod v 16⟩
      rcases List.mem_append.mp hc with hc | hc
      · exact hdigits c hc
      · rw [List.mem_singleton.mp hc, hd]
        rfl

/-- A number ends at the first character that is no digit. -/
theorem readNumber_hex {rest : List Char} (h : rest.head?.bind digit = none) (v : Nat) :
    readNumber 16 (hex v ++ rest) 0 = (v, rest) := by
  obtain ⟨hdigits, hvalue⟩ := hex_value v
  rw [readNumber_digits hdigits, hvalue]
  cases rest with
  | nil => rfl
  | cons c rest =>
    have hc : digit c = none := h
    rw [readNumber, hc]

theorem expect_append (p cs : List Char) : expect p (p ++ cs) = some cs := by
  unfold expect
  rw [if_pos (List.isPrefixOf_iff_prefix.mpr (List.prefix_append p cs)), List.drop_left]

theorem readEntry_entry (i v : Nat) (rest : List Char) :
    readEntry (entry i v ++ rest) = some ((i, v), rest) := by
  unfold readEntry entry
  simp only [List.append_assoc]
  rw [expect_append, Option.bind_eq_bind, Option.bind_some, readNumber_hex rfl]
  dsimp only
  rw [expect_append, Option.bind_some, readNumber_hex rfl]
  dsimp only
  rw [expect_append]
  rfl

theorem readEntries_lines {rest : List Char} (hrest : readEntry rest = none) :
    ∀ {l : List (Nat × Nat)} {n : Nat}, l.length ≤ n →
      readEntries n ((l.flatMap fun e => entry e.1 e.2) ++ rest) = l := by
  intro l
  induction l with
  | nil =>
    intro n hn
    cases n with
    | zero => rfl
    | succ n =>
      rw [List.flatMap_nil, List.nil_append, readEntries, hrest]
  | cons e l ih =>
    intro n hn
    obtain ⟨n, rfl⟩ := Nat.exists_eq_add_one_of_ne_zero (Nat.ne_of_gt (Nat.zero_lt_of_lt hn))
    rw [List.flatMap_cons, List.append_assoc, readEntries, readEntry_entry]
    dsimp only
    rw [ih (Nat.le_of_succ_le_succ hn)]

theorem length_le_lines (l : List (Nat × Nat)) :
    l.length ≤ (l.flatMap fun e => entry e.1 e.2).length := by
  induction l with
  | nil => exact Nat.le_refl 0
  | cons e l ih =>
    have hpos : 1 ≤ (entry e.1 e.2).length := Nat.le_add_left 1 _
    rw [List.flatMap_cons, List.length_append, List.length_cons]
    omega

theorem readMif_header (body : List Char) :
    readMif (header 16 conf.d .HEX .HEX ++ body) =
      some (conf.d, readEntries body.length body) := rfl

/-- **The text says what is in the memory.** -/
theorem readMif_outputMif (mem : Vector Nat conf.d) :
    readMif (outputMif ⟨16, .HEX, .HEX, mem⟩) =
      some (conf.d, (List.finRange conf.d).map fun i => (i.val, mem.get i)) := by
  have hlines : ((List.finRange conf.d).flatMap fun i => entry i.val (mem.get i)) =
      ((List.finRange conf.d).map fun i => (i.val, mem.get i)).flatMap fun e => entry e.1 e.2 := by
    rw [List.flatMap_map]
  unfold outputMif
  rw [List.append_assoc, readMif_header, hlines, readEntries_lines rfl]
  rw [List.length_append]
  exact Nat.le_trans (length_le_lines _) (Nat.le_add_right _ _)

/-! ## 5. The memory -/

/-- The word `k` of the bytes. -/
def wordOf (ch : List UInt8) (k : Nat) : Option Nat :=
  ch[2 * k]?.map fun lsb => lsb.toNat + 256 * (ch[2 * k + 1]?.getD 0).toNat

section
variable {depth : Nat} {mif : Mif depth} {addr : Word}

theorem toInt_addr (h : addr.toNat < 2 ^ 62) : addr.toInt = addr.toNat := by
  refine BitVec.toInt_eq_toNat_of_lt ?_
  omega

theorem halves (lsb msb : UInt8) :
    msb.toNat <<< 8 ||| lsb.toNat = lsb.toNat + 256 * msb.toNat := by
  have hlt : lsb.toNat < 2 ^ 8 := lsb.toNat_lt
  rw [← Nat.shiftLeft_add_eq_or_of_lt hlt, Nat.shiftLeft_eq]
  omega

theorem store_eq (h : addr.toNat < depth) (v : Nat) :
    mif.store addr v = some { mif with mem := mif.mem.set addr.toNat v h } := dif_pos h

theorem get_set {mem : Vector Nat depth} {k v : Nat} (h : k < depth) (i : Fin depth) :
    (mem.set k v h).get i = if k = i then v else mem.get i := by
  change (mem.set k v h)[i.val] = _
  rw [Vector.getElem_set]
  rfl

theorem wordOf_succ (lsb msb : UInt8) (ch : List UInt8) (k : Nat) :
    wordOf (lsb :: msb :: ch) (k + 1) = wordOf ch k := rfl

/-- The rest of a file, and one word before it. -/
theorem getD_wordOf_cons {lsb msb : UInt8} {ch : List UInt8} {k i v v' : Nat}
    (hv' : v' = if k = i then lsb.toNat + 256 * msb.toNat else v) :
    (if k + 1 ≤ i then wordOf ch (i - (k + 1)) else none).getD v' =
      (if k ≤ i then wordOf (lsb :: msb :: ch) (i - k) else none).getD v := by
  rcases Nat.lt_trichotomy i k with hlt | rfl | hgt
  · rw [if_neg (by omega), if_neg (by omega), hv', if_neg (by omega)]
  · rw [if_neg (by omega), if_pos (Nat.le_refl i), hv', if_pos rfl, Nat.sub_self]
    rfl
  · have hsub : i - k = i - (k + 1) + 1 := by omega
    have hle : k + 1 ≤ i := hgt
    rw [if_pos hle, if_pos (Nat.le_of_lt hgt), hv', if_neg (Nat.ne_of_lt hgt), hsub, wordOf_succ]

/-- What a file does to the memory: its words from the address on, as far as the memory goes. -/
theorem loadFile_eq (hdepth : depth < 2 ^ 62) (ch : List UInt8) (mif : Mif depth)
    (h : addr.toNat < 2 ^ 62) :
    ∃ mem, loadFile ch addr mif = some { mif with mem := mem } ∧ ∀ i : Fin depth,
      mem.get i = (if addr.toNat ≤ i then wordOf ch (i - addr.toNat) else none).getD
        (mif.mem.get i) := by
  have hbehind : ∀ {mif : Mif depth} {ch : List UInt8} {addr : Word}, addr.toNat < 2 ^ 62 →
      ¬ addr.toInt < depth → ∀ i : Fin depth, mif.mem.get i =
        (if addr.toNat ≤ i then wordOf ch (i - addr.toNat) else none).getD (mif.mem.get i) := by
    intro mif ch addr h hge i
    rw [toInt_addr h] at hge
    have hi := i.isLt
    rw [if_neg (by omega)]
    rfl
  induction ch, addr, mif using loadFile.induct with
  | case1 addr mif =>
    refine ⟨mif.mem, rfl, fun i => ?_⟩
    split
    · rfl
    · rfl
  | case2 lsb addr mif hlt =>
    have hlt' := hlt
    rw [toInt_addr h, Int.ofNat_lt] at hlt'
    refine ⟨mif.mem.set addr.toNat lsb.toNat hlt', ?_, fun i => ?_⟩
    · rw [loadFile, if_pos hlt, Nat.zero_shiftLeft, Nat.zero_or, store_eq hlt']
    · rw [get_set]
      rcases Nat.lt_trichotomy i.val addr.toNat with hi | hi | hi
      · rw [if_neg (Nat.ne_of_gt hi), if_neg (Nat.not_le_of_gt hi)]
        rfl
      · rw [if_pos hi.symm, if_pos (Nat.le_of_eq hi.symm), hi, Nat.sub_self]
        rfl
      · have hnone : wordOf [lsb] (i - addr.toNat) = none := by
          have hbyte : [lsb][2 * (i - addr.toNat)]? = none := by
            refine List.getElem?_eq_none ?_
            rw [List.length_singleton]
            omega
          unfold wordOf
          rw [hbyte]
          rfl
        rw [if_neg (Nat.ne_of_lt hi), if_pos (Nat.le_of_lt hi), hnone]
        rfl
  | case3 lsb addr mif hge =>
    refine ⟨mif.mem, ?_, hbehind h hge⟩
    rw [loadFile, if_neg hge]
  | case4 lsb msb ch addr mif hlt ih =>
    have hlt' := hlt
    rw [toInt_addr h, Int.ofNat_lt] at hlt'
    have hnext : (addr + 1).toNat = addr.toNat + 1 := by
      have hone : (1 : Word).toNat = 1 := rfl
      rw [BitVec.toNat_add, hone, Nat.mod_eq_of_lt (by omega)]
    obtain ⟨mem, hload, hmem⟩ := ih { mif with
      mem := mif.mem.set addr.toNat (msb.toNat <<< 8 ||| lsb.toNat) hlt' } (by omega)
    refine ⟨mem, ?_, fun i => ?_⟩
    · rw [loadFile, if_pos hlt, store_eq hlt', Option.bind_eq_bind, Option.bind_some]
      exact hload
    · rw [hmem i, hnext]
      refine getD_wordOf_cons ?_
      dsimp only
      rw [get_set, halves]
  | case5 lsb msb ch addr mif hge =>
    refine ⟨mif.mem, ?_, hbehind h hge⟩
    rw [loadFile, if_neg hge]

end

/-! ## 6. The inputs -/

/-- What an input gives for the word `i`. -/
def Input.gives (x : Input) (base : Int) (i : Nat) : Option Nat :=
  if x.covers (wordAddr base i) then some (x.word (wordAddr base i)) else none

/-- **A word of an input** is a word of the RAM. -/
theorem Input.gives_eq {x : Input} {base : Int} (heven : x.addr % 2 = 0) (hbase : base ≤ x.addr)
    (i : Nat) : x.gives base i =
      if ((x.addr - base) / 2).toNat ≤ i then wordOf x.bytes (i - ((x.addr - base) / 2).toNat)
      else none := by
  split
  · rename_i hle
    obtain ⟨k, hk⟩ : ∃ k, k = i - ((x.addr - base) / 2).toNat := ⟨_, rfl⟩
    have haddr : wordAddr base i = x.addr + 2 * k := by
      unfold wordAddr
      omega
    have hlow : x.byte (wordAddr base i) = x.bytes[2 * k]? := by
      unfold byte
      rw [haddr, if_pos (by omega)]
      congr 1
      omega
    have hhigh : x.byte (wordAddr base i + 1) = x.bytes[2 * k + 1]? := by
      unfold byte
      rw [haddr, if_pos (by omega)]
      congr 1
      omega
    unfold Input.gives covers word wordOf
    rw [← hk, hlow, hhigh]
    cases hbyte : x.bytes[2 * k]? with
    | some lsb => rfl
    | none =>
      have hnone : x.bytes[2 * k + 1]? = none := by
        rw [List.getElem?_eq_none_iff] at hbyte ⊢
        omega
      rw [hnone]
      rfl
  · rename_i hlt
    have hbelow : wordAddr base i + 1 < x.addr := by
      unfold wordAddr
      omega
    have hlow : ¬ x.addr ≤ wordAddr base i := by omega
    have hhigh : ¬ x.addr ≤ wordAddr base i + 1 := by omega
    unfold Input.gives covers byte
    rw [if_neg hlow, if_neg hhigh]
    rfl

/-- `(a - base_addr) lsr 1`, also where the difference has more than 62 bits. -/
theorem lsr_toNat {a base : Word} (h : base.toInt ≤ a.toInt) :
    ((a - base) >>> 1).toNat = ((a.toInt - base.toInt) / 2).toNat := by
  have ha := a.isLt
  have hb := base.isLt
  rw [BitVec.toNat_ushiftRight, Nat.shiftRight_eq_div_pow, BitVec.toNat_sub]
  rw [BitVec.toInt_eq_toNat_cond, BitVec.toInt_eq_toNat_cond] at *
  split at h
  · split at h
    · omega
    · omega
  · split at h
    · omega
    · omega

section
variable {fs : String → Option (List UInt8)} {base : Word} {depth : Nat}

/-- One input. -/
theorem load_eq {t : String × Word × Word} (hdepth : depth < 2 ^ 62) (ht : Fits fs base t)
    (mif : Mif depth) : ∃ ch ch' mem, fs t.1 = some ch ∧ seekIn ch t.2.2 = some ch' ∧
      loadFile ch' ((t.2.1 - base) >>> 1) mif = some { mif with mem := mem } ∧ ∀ i : Fin depth,
        mem.get i = ((input fs t).gives base.toInt i).getD (mif.mem.get i) := by
  obtain ⟨ch, hch⟩ := Option.isSome_iff_exists.mp ht.opened
  have hlt : ((t.2.1 - base) >>> 1).toNat < 2 ^ 62 := by
    have hsub := (t.2.1 - base).isLt
    rw [BitVec.toNat_ushiftRight, Nat.shiftRight_eq_div_pow]
    omega
  obtain ⟨mem, hload, hmem⟩ := loadFile_eq hdepth (ch.drop t.2.2.toNat) mif hlt
  refine ⟨ch, ch.drop t.2.2.toNat, mem, hch, if_neg (Int.not_lt.mpr ht.offset), hload, fun i => ?_⟩
  have hbytes : (input fs t).bytes = ch.drop t.2.2.toNat := by
    unfold input
    rw [hch]
    rfl
  rw [hmem i, Input.gives_eq ht.even ht.base, hbytes, lsr_toNat ht.base]
  rfl

/-- **The inputs**: the last one in the lists has the first word. -/
theorem loadFiles_eq (hdepth : depth < 2 ^ 62) {l : List (String × Word × Word)} :
    ∀ mif : Mif depth, (∀ t ∈ l, Fits fs base t) →
      ∃ mem, loadFiles fs base (l.map fun t => t.1) (l.map fun t => t.2.1)
          (l.map fun t => t.2.2) mif = some { mif with mem := mem } ∧
        ∀ i : Fin depth, mem.get i =
          (l.reverse.findSome? fun t => (input fs t).gives base.toInt i).getD (mif.mem.get i) := by
  induction l with
  | nil =>
    intro mif _
    exact ⟨mif.mem, rfl, fun i => rfl⟩
  | cons t l ih =>
    intro mif h
    obtain ⟨ht, hl⟩ := List.forall_mem_cons.mp h
    obtain ⟨ch, ch', mem₁, hopen, hseek, hload, hmem₁⟩ := load_eq hdepth ht mif
    obtain ⟨mem, hrest, hmem⟩ := ih { mif with mem := mem₁ } hl
    refine ⟨mem, ?_, fun i => ?_⟩
    · rw [List.map_cons, List.map_cons, List.map_cons, loadFiles]
      simp only [Option.bind_eq_bind, hopen, hseek, hload, Option.bind_some]
      exact hrest
    · rw [hmem i, hmem₁ i, List.reverse_cons, List.findSome?_append, List.findSome?_singleton]
      cases l.reverse.findSome? fun t => (input fs t).gives base.toInt i with
      | none => rfl
      | some v => rfl

end

/-- **The lists are accumulated in reverse.** -/
theorem foldl_arg (argv : List Opt) : ∀ c : Conf, argv.foldl Conf.arg c =
    { c with
      baseAddr := (bases argv).getLastD c.baseAddr
      input := (loads argv).reverse.map (fun t => t.1) ++ c.input
      laddr := (loads argv).reverse.map (fun t => t.2.1) ++ c.laddr
      loffset := (loads argv).reverse.map (fun t => t.2.2) ++ c.loffset } := by
  induction argv with
  | nil =>
    intro c
    rfl
  | cons x argv ih =>
    intro c
    rw [List.foldl_cons, ih]
    cases x with
    | b x =>
      have hbases : bases (.b x :: argv) = x :: bases argv := rfl
      rw [hbases, List.getLastD_cons]
      rfl
    | i f a o =>
      have hloads : loads (.i f a o :: argv) = (f, a, o) :: loads argv := rfl
      rw [hloads, List.reverse_cons, List.map_append, List.map_append, List.map_append,
        List.append_assoc, List.append_assoc, List.append_assoc]
      rfl
    | anon f => rfl

/-- The first input that covers a word is the first that gives something for it. -/
theorem image_eq (base : Int) (inputs : List Input) (i : Nat) :
    image base inputs i = (inputs.findSome? fun x => x.gives base i).getD conf.defaultValue := by
  unfold image
  induction inputs with
  | nil => rfl
  | cons x inputs ih =>
    rw [List.find?_cons, List.findSome?_cons, Input.gives]
    cases x.covers (wordAddr base i) with
    | true => rfl
    | false => exact ih

/-- **bin2mif builds the overlay image**: every address once, in order, and for each the word of
    the first input that covers it. -/
theorem bin2mif_image (fs : String → Option (List UInt8)) (argv : List Opt)
    (h : ∀ t ∈ loads argv, Fits fs (ramBase argv) t) :
    ∃ text, main fs argv = some text ∧ readMif text = some (conf.d,
      (List.range conf.d).map fun i => (i, image (ramBase argv).toInt (inputs fs argv) i)) := by
  have hdepth : conf.d < 2 ^ 62 := by decide
  obtain ⟨mem, hload, hmem⟩ := loadFiles_eq hdepth
    (⟨16, .HEX, .HEX, Vector.replicate conf.d conf.defaultValue⟩ : Mif conf.d)
    fun t ht => h t (List.mem_reverse.mp ht)
  refine ⟨outputMif ⟨16, .HEX, .HEX, mem⟩, ?_, ?_⟩
  · unfold main
    rw [foldl_arg]
    dsimp only
    have hnil : conf.input = [] ∧ conf.laddr = [] ∧ conf.loffset = [] := ⟨rfl, rfl, rfl⟩
    have hbase : (bases argv).getLastD conf.baseAddr = ramBase argv := rfl
    rw [hnil.1, hnil.2.1, hnil.2.2, List.append_nil, List.append_nil, List.append_nil, hbase, hload]
    rfl
  · have hget : ∀ i : Fin conf.d, mem.get i = image (ramBase argv).toInt (inputs fs argv) i := by
      intro i
      have hdefault : (Vector.replicate conf.d conf.defaultValue).get i = conf.defaultValue :=
        Vector.getElem_replicate i.isLt
      rw [hmem i, List.reverse_reverse, image_eq, inputs, List.findSome?_map, hdefault]
      rfl
    have hrange : List.range conf.d = (List.finRange conf.d).map fun i => i.val := by
      refine List.ext_getElem ?_ fun i hi hi' => ?_
      · rw [List.length_range, List.length_map, List.length_finRange]
      · rw [List.getElem_range, List.getElem_map, List.getElem_finRange]
        rfl
    rw [readMif_outputMif, hrange, List.map_map]
    simp only [hget]
    rfl

/-- Three bytes at the second word. -/
theorem bin2mif_image_three :
    ∃ text, main (fun _ => some [1, 2, 3]) [.i "a" 0xFF8002 0] = some text ∧
      readMif text = some (conf.d, (List.range conf.d).map fun i =>
        (i, image 0xFF8000 (inputs (fun _ => some [1, 2, 3]) [.i "a" 0xFF8002 0]) i)) := by
  refine bin2mif_image (fun _ => some [1, 2, 3]) [.i "a" 0xFF8002 0] fun t ht => ?_
  obtain rfl := List.mem_singleton.mp ht
  exact ⟨rfl, by decide, by decide, by decide⟩

example : (List.range 5).map (image 0xFF8000 [⟨[1, 2, 3], 0xFF8002⟩]) =
    [0xF4F4, 0x0201, 0x0003, 0xF4F4, 0xF4F4] := by decide

end LsePc.Tools.Bin2mif
