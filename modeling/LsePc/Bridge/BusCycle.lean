/-
  File:      LsePc/Bridge/BusCycle.lean
  Subject:   The memory the CPU has: its bus cycles on bus_control.v, memory_control.v and the
             data bus of top_level.v.

  `clk` is the CLK2 of the CPU, so a state of its bus is two clocks. A cycle has clocks T1 with
  ADS# and then clocks T2, up to one in which READY# is low. The bridge makes it two clocks from
  the last ADS# on. It selects a memory in all of them and, since the bus controller never goes
  back to ST_IDLE, also between two cycles.

  * `Cell`, `cell`: the memory map of README.md, by addresses of bytes;
  * `serve`: the memory on its own, one cycle after the other;
  * `TopLevel.lane`: who drives a byte of the data bus;
  * `CpuStep`: a clock of the CPU on the bridge, or one in which the OCD is attached;
  * **results**: `bus_refines`, the cycles of any run are those of the memory on its own;
    `image_read`, what bin2mif made of a file is what is read in both windows of the RAM.
-/
import LsePc.Bridge.Memory
import LsePc.Lib.Transition
import LsePc.Tools.Bin2mif

namespace LsePc.Bridge

open LsePc.Lib

/-! ## 1. The memory -/

/-- A word of the internal RAM or of the SRAM. -/
inductive Cell where
  | internal (w : BitVec 14)
  | sram (w : BitVec 19)
  deriving DecidableEq, Repr

/-- The first 640K of the SRAM, the internal RAM below 1M, the whole SRAM, and the internal RAM
    again at the end. -/
def cell (a : BitVec 23) : Option Cell :=
  let p := 2 * a.toNat
  if p < 0x0A0000 then some (.sram (BitVec.ofNat 19 (p / 2)))
  else if 0x0F8000 ≤ p ∧ p < 0x100000 then
    some (.internal (BitVec.ofNat 14 ((p - 0x0F8000) / 2)))
  else if 0x100000 ≤ p ∧ p < 0x200000 then some (.sram (BitVec.ofNat 19 ((p - 0x100000) / 2)))
  else if 0xFF8000 ≤ p then some (.internal (BitVec.ofNat 14 ((p - 0xFF8000) / 2)))
  else none

/-- A bus cycle; `d` is what a write writes. -/
structure BusCycle where
  a : BitVec 23
  bheN : Bool
  bleN : Bool
  wr : Bool
  mio : Bool
  d : Word

/-- The bytes of the bus that are driven. -/
abbrev Lanes := Option (BitVec 8) × Option (BitVec 8)

def lanes (bheN bleN : Bool) (w : Word) : Lanes :=
  (if bheN then none else some (w.extractLsb' 8 8), if bleN then none else some (w.extractLsb' 0 8))

abbrev Memory := Cell → Word

namespace Memory

def of (internal : BitVec 14 → Word) (sram : BitVec 19 → Word) : Memory
  | .internal w => internal w
  | .sram w => sram w

def write (m : Memory) (c : BusCycle) : Memory :=
  if c.wr = true ∧ c.mio = true then
    match cell c.a with
    | some k => Function.update m k (byteena (!c.bheN) (!c.bleN) c.d (m k))
    | none => m
  else m

/-- Where there is no memory zeros are read. -/
def read (m : Memory) (c : BusCycle) : Word :=
  if c.mio = true then ((cell c.a).map m).getD 0 else 0

/-- One cycle. -/
def serve (m : Memory) (c : BusCycle) : Lanes × Memory :=
  (if c.wr = true then (none, none) else lanes c.bheN c.bleN (m.read c), m.write c)

/-- A cycle with the bytes the CPU reads. -/
def Step (m : Memory) (e : BusCycle × Lanes) (m' : Memory) : Prop := m.serve e.1 = (e.2, m')

end Memory

/-! ## 2. The bus -/

namespace TopLevel

variable (x : TopLevel) (i : Pins)

/-- A byte of `d` that the CPU does not drive: high impedance where it is `none`. The SRAM has
    RAMCS# as its output enable. -/
def lane (beN : Bool) (byte : Word → BitVec 8) : Option (BitVec 8) :=
  if (!i.ocdEn && !x.bc.oe) || i.wr || beN || !x.ramcs i then
    if !x.ramcs i && x.ramwe i && !beN then some (byte (x.sram (i.a.extractLsb' 0 19))) else none
  else some (byte (x.dout i))

def lanes : Lanes :=
  (x.lane i i.bheN fun w => w.extractLsb' 8 8, x.lane i i.bleN fun w => w.extractLsb' 0 8)

/-- What is stored. -/
def contents : Memory := .of x.ram.words x.sram

end TopLevel

/-- The cycle the pins define. -/
def Pins.cycle (i : Pins) : BusCycle := ⟨i.a, i.bheN, i.bleN, i.wr, i.mio, i.d⟩

/-- The CPU drives the pins of `c`, the OCD does not. -/
structure Drives (c : BusCycle) (i : Pins) : Prop where
  cycle : i.cycle = { c with d := i.d }
  detached : i.ocdEn = false

/-- Where the CPU is: idle after `last`, or in a clock of a cycle with ADS#, or after them. -/
inductive Phase where
  | ti (last : Option BusCycle)
  | t1 (c : BusCycle)
  | t2 (c : BusCycle)

/-- Between two cycles: no memory is selected for writing, or the last cycle is repeated. -/
def Rests (last : Option BusCycle) (i : Pins) : Prop :=
  i.wr = false ∨ i.mio = false ∨ some i.cycle = last

/-- A memory may be written. -/
def Phase.Writes : Phase → Prop
  | .ti _ => False
  | .t1 c => c.wr = true ∧ c.mio = true
  | .t2 c => c.wr = true ∧ c.mio = true

/-- After a cycle: nothing, or the next one. -/
def Phase.Follows (last : Option BusCycle) (p : Phase) : Prop := p = .ti last ∨ ∃ c, p = .t1 c

/-- **A clock**. ADS# is low for any number of clocks, and the data of a write is there from the
    first clock after them on. READY# is looked at in some of the clocks. The OCD takes over
    between two cycles, or in one that does not write to memory; while it is attached the CPU
    does not write to the internal RAM. -/
inductive CpuStep : TopLevel × Phase → Option (BusCycle × Lanes) → TopLevel × Phase → Prop where
  | idle {x : TopLevel} {i : Pins} {last : Option BusCycle} {p : Phase} (hads : i.adsN = true)
      (hen : i.ocdEn = false) (hrest : Rests last i) (hp : p.Follows last) :
      CpuStep (x, .ti last) none (x.clk i, p)
  | t1 {x : TopLevel} {i : Pins} {c : BusCycle} {p : Phase} (hads : i.adsN = false)
      (h : Drives c i) (hp : p = .t1 c ∨ p = .t2 c) : CpuStep (x, .t1 c) none (x.clk i, p)
  | wait {x : TopLevel} {i : Pins} {c : BusCycle} (hads : i.adsN = true) (h : Drives c i)
      (hd : c.wr = true → i.d = c.d) : CpuStep (x, .t2 c) none (x.clk i, .t2 c)
  | done {x : TopLevel} {i : Pins} {c : BusCycle} {p : Phase} (hads : i.adsN = true)
      (h : Drives c i) (hd : c.wr = true → i.d = c.d) (hready : x.readyN i = false)
      (hp : p.Follows (some c)) : CpuStep (x, .t2 c) (some (c, x.lanes i)) (x.clk i, p)
  | attached {x : TopLevel} {i : Pins} {p q : Phase} (hen : i.ocdEn = true)
      (hram : ¬ WritesInternal x i) (hp : ¬ p.Writes) (hq : q.Follows none) :
      CpuStep (x, p) none (x.clk i, q)

/-! ## 3. The memory map -/

section
variable {a : BitVec 23} {m : Memory} {c : BusCycle} {x : TopLevel} {i : Pins}

/-- The internal RAM is selected by A23 to A15. -/
theorem cell_internal (w : BitVec 14) : cell a = some (.internal w) ↔
    (a.extractLsb' 14 9 = 0x1FF ∨ a.extractLsb' 14 9 = 0x01F) ∧ w = a.extractLsb' 0 14 := by
  have ha := a.isLt
  have hw := w.isLt
  unfold cell
  simp only [← BitVec.toNat_inj, BitVec.extractLsb'_toNat, Nat.shiftRight_eq_div_pow]
  split
  · simp
    omega
  · split
    · simp [← BitVec.toNat_inj]
      omega
    · split
      · simp
        omega
      · split
        · simp [← BitVec.toNat_inj]
          omega
        · simp
          omega

/-- The SRAM is selected by A23 to A16, or A23 to A20. -/
theorem cell_sram (w : BitVec 19) : cell a = some (.sram w) ↔
    (a.extractLsb' 15 8 < 0x0A ∨ a.extractLsb' 19 4 = 0x1) ∧ w = a.extractLsb' 0 19 := by
  have ha := a.isLt
  have hw := w.isLt
  unfold cell
  simp only [← BitVec.toNat_inj, BitVec.extractLsb'_toNat, Nat.shiftRight_eq_div_pow,
    BitVec.lt_def]
  split
  · simp [← BitVec.toNat_inj]
    omega
  · split
    · simp
      omega
    · split
      · simp [← BitVec.toNat_inj]
        omega
      · split
        · simp
          omega
        · simp
          omega

/-- What the wires of memory_control.v say of an address. -/
theorem mem_selects (hmem : x.bc.bce = true) : (x.mem i).internalRamCs =
      (i.mio && decide (cell i.a = some (.internal (i.a.extractLsb' 0 14)))) ∧
    (x.mem i).ramcs =
      !(i.mio && decide (cell i.a = some (.sram (i.a.extractLsb' 0 19)))) := by
  have hi : (decide (cell i.a = some (.internal (i.a.extractLsb' 0 14)))) =
      (i.a.extractLsb' 14 9 == 0x1FF || i.a.extractLsb' 14 9 == 0x01F) := by
    rw [Bool.eq_iff_iff, decide_eq_true_iff, cell_internal]
    simp
  have hs : (decide (cell i.a = some (.sram (i.a.extractLsb' 0 19)))) =
      (decide (i.a.extractLsb' 15 8 < 0x0A) || i.a.extractLsb' 19 4 == 0x1) := by
    rw [Bool.eq_iff_iff, decide_eq_true_iff, cell_sram]
    simp
  rw [hi, hs]
  unfold MemoryControl.internalRamCs MemoryControl.ramcs TopLevel.mem
  dsimp only
  rw [hmem, Bool.true_and]
  exact ⟨rfl, rfl⟩

theorem cell_cases (a : BitVec 23) : cell a = some (.internal (a.extractLsb' 0 14)) ∨
    cell a = some (.sram (a.extractLsb' 0 19)) ∨ cell a = none := by
  cases h : cell a with
  | none => exact .inr (.inr rfl)
  | some k =>
    cases k with
    | internal w => exact .inl (by rw [((cell_internal w).mp h).2])
    | sram w => exact .inr (.inl (by rw [((cell_sram w).mp h).2]))

/-! ## 4. A clock -/

theorem byteena_byteena (high low : Bool) (d e w : Word) :
    byteena high low d (byteena high low e w) = byteena high low d w := by
  have hsplit : ∀ u v : BitVec 8, (u ++ v).extractLsb' 8 8 = u ∧ (u ++ v).extractLsb' 0 8 = v := by
    intro u v
    exact ⟨BitVec.extractLsb'_append_eq_left, BitVec.extractLsb'_append_eq_right⟩
  unfold byteena
  rw [(hsplit _ _).1, (hsplit _ _).2]
  cases high with
  | false =>
    cases low with
    | false => rfl
    | true => rfl
  | true =>
    cases low with
    | false => rfl
    | true => rfl

/-- The last write counts. -/
theorem Memory.write_write (m : Memory) (c : BusCycle) (d : Word) :
    (m.write { c with d := d }).write c = m.write c := by
  unfold Memory.write
  dsimp only
  split
  · cases h : cell c.a with
    | none => rfl
    | some k =>
      dsimp only
      rw [Function.update_self, Function.update_idem, byteena_byteena]
  · rfl

theorem Memory.write_of_read (m : Memory) (h : c.wr = false) : m.write c = m := by
  unfold Memory.write
  rw [if_neg (by simp [h])]

theorem Memory.of_internal (ram : BitVec 14 → Word) (sram : BitVec 19 → Word) (w : BitVec 14)
    (v : Word) : Memory.of (Function.update ram w v) sram =
      Function.update (Memory.of ram sram) (.internal w) v := by
  funext k
  cases k with
  | internal w' => simp [Memory.of, Function.update_apply]
  | sram w' => simp [Memory.of]

theorem Memory.of_sram (ram : BitVec 14 → Word) (sram : BitVec 19 → Word) (w : BitVec 19)
    (v : Word) : Memory.of ram (Function.update sram w v) =
      Function.update (Memory.of ram sram) (.sram w) v := by
  funext k
  cases k with
  | internal w' => simp [Memory.of]
  | sram w' => simp [Memory.of, Function.update_apply]

/-- **One clock** of the memories: while a cycle is on the bus, what the pins write is written. -/
theorem clk_contents (hen : i.ocdEn = false) : (x.clk i).contents =
    if x.bc.bce = true then x.contents.write i.cycle else x.contents := by
  have hram : (x.clk i).ram.words = if (x.mem i).internalRamCs && i.wr then
      Function.update x.ram.words (i.a.extractLsb' 0 14)
        (byteena (!i.bheN) (!i.bleN) i.d (x.ram.words (i.a.extractLsb' 0 14)))
    else x.ram.words := by
    change (if (x.mem i).internalRamWr then _ else _) = _
    rw [internalRamWr_eq]
    rfl
  have hsram : (x.clk i).sram = if !(x.mem i).ramcs && i.wr then
      Function.update x.sram (i.a.extractLsb' 0 19)
        (byteena (!i.bheN) (!i.bleN) i.d (x.sram (i.a.extractLsb' 0 19)))
    else x.sram := by
    unfold TopLevel.clk TopLevel.sramWrite TopLevel.ramwe TopLevel.ramcs MemoryControl.ramwe
    rw [hen]
    cases (x.mem i).ramcs with
    | false => simp [TopLevel.mem]
    | true => simp
  unfold TopLevel.contents
  rw [hram, hsram]
  by_cases hb : x.bc.bce = true
  · obtain ⟨hi, hs⟩ := mem_selects (i := i) hb
    rw [if_pos hb, hi, hs]
    unfold Memory.write Pins.cycle
    dsimp only
    rcases cell_cases i.a with h | h | h
    · cases hm : i.mio with
      | false => simp
      | true =>
        cases hw : i.wr with
        | false => simp
        | true => simp [h, Memory.of_internal, Memory.of]
    · cases hm : i.mio with
      | false => simp
      | true =>
        cases hw : i.wr with
        | false => simp
        | true => simp [h, Memory.of_sram, Memory.of]
    · simp [h]
  · have hcs : (x.mem i).internalRamCs = false ∧ (x.mem i).ramcs = true := by
      unfold MemoryControl.internalRamCs MemoryControl.ramcs TopLevel.mem
      simp [hb]
    rw [if_neg hb, hcs.1, hcs.2]
    rfl

/-- The byte of a read, when READY# is low. -/
theorem lane_read (hen : i.ocdEn = false) (ht2 : x.bc.state = .t2) (hwr : i.wr = false)
    (hq : x.ram.q = x.ram.words (i.a.extractLsb' 0 14)) (beN : Bool) (byte : Word → BitVec 8) :
    x.lane i beN byte = if beN then none else some (byte (x.contents.read i.cycle)) := by
  have hbce : x.bc.bce = true := by simp [BusControl.bce, ht2]
  have hoe : x.bc.oe = true := by simp [BusControl.oe, ht2]
  obtain ⟨hi, hs⟩ := mem_selects (i := i) hbce
  unfold TopLevel.lane TopLevel.ramwe TopLevel.dout TopLevel.ramcs MemoryControl.ramwe
    MemoryControl.dataOut
  rw [hen, hoe, hwr, hi, hs, hq]
  unfold TopLevel.contents Memory.read Pins.cycle
  dsimp only
  have hcs : (x.mem i).cs = i.mio ∧ (x.mem i).wr = false := by simp [TopLevel.mem, hbce, hwr]
  rw [hcs.1, hcs.2]
  rcases cell_cases i.a with h | h | h
  · cases beN with
    | false => cases i.mio <;> simp [h, Memory.of]
    | true => cases i.mio <;> simp [h]
  · cases beN with
    | false => cases i.mio <;> simp [h, Memory.of]
    | true => cases i.mio <;> simp [h]
  · cases beN with
    | false => cases i.mio <;> simp [h]
    | true => cases i.mio <;> simp [h]

/-- In a write neither the FPGA nor the SRAM drives the bus. -/
theorem lane_write (hen : i.ocdEn = false) (hwr : i.wr = true) (beN : Bool)
    (byte : Word → BitVec 8) : x.lane i beN byte = none := by
  unfold TopLevel.lane TopLevel.ramwe TopLevel.ramcs MemoryControl.ramwe
  rw [hen, hwr]
  have hw : (x.mem i).wr = true := hwr
  rw [hw]
  cases (x.mem i).ramcs with
  | false => simp
  | true => simp

/-! ## 5. Runs -/

/-- **The bridge has the memory** `m`. Up to the first clock after ADS# a word of a write may have
    wrong data, from the second one on it has been written. -/
def Holds (x : TopLevel) (m : Memory) : Phase → Prop
  | .ti last => x.contents = m ∧ ∀ c ∈ last, m.write c = m
  | .t1 c => x.contents.write c = m.write c
  | .t2 c => (c.wr = false → x.ram.latch = x.ram.words (c.a.extractLsb' 0 14)) ∧
      ((x.bc = { readyN := true, state := .t1 } ∧ x.contents.write c = m.write c) ∨
        (x.bc = { readyN := false, state := .t2 } ∧ x.contents = m.write c ∧
          (c.wr = false → x.ram.q = x.ram.words (c.a.extractLsb' 0 14))))

theorem Phase.Follows.holds {p : Phase} {last : Option BusCycle} (hp : p.Follows last)
    (h : x.contents = m) (hlast : ∀ c ∈ last, m.write c = m) : Holds x m p := by
  rcases hp with rfl | ⟨c, rfl⟩
  · exact ⟨h, hlast⟩
  · exact congrArg (Memory.write · c) h

/-- Without a write there is nothing to come. -/
theorem Holds.contents {p : Phase} (h : Holds x m p) (hp : ¬ p.Writes) : x.contents = m := by
  have hsame : ∀ {c : BusCycle}, ¬ (c.wr = true ∧ c.mio = true) → ∀ m : Memory, m.write c = m :=
    fun hc m => if_neg hc
  cases p with
  | ti last => exact h.1
  | t1 c =>
    have h : x.contents.write c = m.write c := h
    rwa [hsame hp, hsame hp] at h
  | t2 c =>
    rcases h with ⟨-, ⟨-, h⟩ | ⟨-, h, -⟩⟩
    · rwa [hsame hp, hsame hp] at h
    · rwa [hsame hp] at h

/-- A clock that drives the cycle. -/
theorem Drives.clk (h : Drives c i) : (x.clk i).contents =
    if x.bc.bce = true then x.contents.write { c with d := i.d } else x.contents := by
  rw [clk_contents h.detached, h.cycle]

/-- A read writes nothing, so its data is no matter. -/
theorem write_data (h : c.wr = true → i.d = c.d) (m : Memory) :
    m.write { c with d := i.d } = m.write c := by
  by_cases hw : c.wr = true
  · rw [h hw]
  · rw [Bool.not_eq_true] at hw
    rw [m.write_of_read hw]
    exact m.write_of_read hw

/-- A read leaves the words alone. -/
theorem Drives.words (h : Drives c i) (hw : c.wr = false) :
    (x.clk i).ram.words = x.ram.words := by
  have hsame : (x.clk i).contents = x.contents := by
    rw [h.clk]
    split
    · exact x.contents.write_of_read hw
    · rfl
  funext w
  exact congrFun hsame (.internal w)

/-- In a read every clock reads the word that is asked for. -/
theorem Drives.latch (h : Drives c i) (hw : c.wr = false) :
    (x.clk i).ram.latch = (x.clk i).ram.words (c.a.extractLsb' 0 14) := by
  have haddr : i.a = c.a := congrArg BusCycle.a h.cycle
  rw [h.words hw, ← haddr]
  rfl

/-- A clock with the data of a write on the bus. -/
theorem Drives.clk_second (h : Drives c i) (hbce : x.bc.bce = true)
    (hdata : c.wr = true → i.d = c.d)
    (hlatch : c.wr = false → x.ram.latch = x.ram.words (c.a.extractLsb' 0 14))
    (hmem : x.contents.write c = m.write c) : (x.clk i).contents = m.write c ∧
      (c.wr = false → (x.clk i).ram.q = (x.clk i).ram.words (c.a.extractLsb' 0 14)) := by
  refine ⟨by rw [h.clk, if_pos hbce, write_data hdata, hmem], fun hw => ?_⟩
  rw [h.words hw]
  exact hlatch hw

end

/-- **One clock**: the memory stands, or has served the cycle that is through. -/
theorem holds_step {x x' : TopLevel} {p p' : Phase} {m : Memory} {e : Option (BusCycle × Lanes)}
    (hm : Holds x m p) (h : CpuStep (x, p) e (x', p')) :
    ∃ m', Seen Memory.Step m e m' ∧ Holds x' m' p' := by
  cases h with
  | @idle _ i last _ hads hen hrest hp =>
    obtain ⟨hmem, hlast⟩ := hm
    have hclk : (x.clk i).contents = m := by
      rw [clk_contents hen, hmem]
      split
      · rcases hrest with hw | hio | hc
        · exact m.write_of_read hw
        · exact if_neg fun h => absurd (hio.symm.trans h.2) Bool.false_ne_true
        · exact hlast _ hc.symm
      · rfl
    exact ⟨m, rfl, hp.holds hclk hlast⟩
  | @t1 _ i c _ hads hd hp =>
    have hmem : x.contents.write c = m.write c := hm
    have hwrite : (x.clk i).contents.write c = m.write c := by
      rw [hd.clk]
      split
      · rw [x.contents.write_write c i.d, hmem]
      · exact hmem
    refine ⟨m, rfl, ?_⟩
    rcases hp with rfl | rfl
    · exact hwrite
    · refine ⟨hd.latch, .inl ⟨?_, hwrite⟩⟩
      unfold TopLevel.clk BusControl.clk
      rw [hads]
      rfl
  | @wait _ i c hads hd hdata =>
    obtain ⟨hlatch, ⟨hbc, hmem⟩ | ⟨hbc, hmem, hq⟩⟩ := hm
    · refine ⟨m, rfl, hd.latch, .inr ⟨?_, ?_⟩⟩
      · unfold TopLevel.clk BusControl.clk
        rw [hads, hbc]
        rfl
      · exact hd.clk_second (by rw [hbc]; rfl) hdata hlatch hmem
    · have hmem' : x.contents.write c = m.write c := by
        rw [hmem]
        exact m.write_write c c.d
      refine ⟨m, rfl, hd.latch, .inr ⟨?_, ?_⟩⟩
      · unfold TopLevel.clk BusControl.clk
        rw [hads, hbc]
        rfl
      · exact hd.clk_second (by rw [hbc]; rfl) hdata hlatch hmem'
  | @done _ i c _ hads hd hdata hready hp =>
    obtain ⟨-, ⟨hbc, -⟩ | ⟨hbc, hmem, hq⟩⟩ := hm
    · unfold TopLevel.readyN at hready
      rw [hd.detached, hbc] at hready
      cases hready
    · have hbce : x.bc.bce = true := by rw [hbc]; rfl
      have hagain : (m.write c).write c = m.write c := m.write_write c c.d
      have hclk : (x.clk i).contents = m.write c := by
        rw [hd.clk, if_pos hbce, write_data hdata, hmem, hagain]
      refine ⟨m.write c, ?_, hp.holds hclk ?_⟩
      · change m.serve c = (x.lanes i, m.write c)
        unfold Memory.serve TopLevel.lanes
        have hcyc := hd.cycle
        have hwr : i.wr = c.wr := congrArg BusCycle.wr hcyc
        by_cases hw : c.wr = true
        · have hlane := lane_write (x := x) hd.detached (hwr.trans hw)
          rw [if_pos hw, hlane, hlane]
        · rw [Bool.not_eq_true] at hw
          have haddr : i.a = c.a := congrArg BusCycle.a hcyc
          have hbhe : i.bheN = c.bheN := congrArg BusCycle.bheN hcyc
          have hble : i.bleN = c.bleN := congrArg BusCycle.bleN hcyc
          have ht2 : x.bc.state = .t2 := by rw [hbc]
          have hread : x.ram.q = x.ram.words (i.a.extractLsb' 0 14) := haddr ▸ hq hw
          have hsame : x.contents.read i.cycle = m.read c := by
            rw [hmem, m.write_of_read hw, hcyc]
            rfl
          rw [lane_read hd.detached ht2 (hwr.trans hw) hread,
            lane_read hd.detached ht2 (hwr.trans hw) hread, hsame, hbhe, hble]
          simp [hw, lanes]
      · intro c' hc'
        cases hc'
        exact hagain
  | @attached _ i _ _ hen hram hp hq =>
    have hstill := clk_still ((still_attached_iff hen).mpr hram)
    refine ⟨m, rfl, hq.holds ?_ (by simp)⟩
    unfold TopLevel.contents
    rw [hstill.1, hstill.2]
    exact hm.contents hp

theorem path_holds {x : TopLevel} {s : TopLevel × Phase} {es : List (Option (BusCycle × Lanes))}
    (h : Path CpuStep (x, .ti none) es s) :
    ∃ m, Path Memory.Step x.contents (es.filterMap id) m ∧ Holds s.1 m s.2 := by
  have hstart : Holds x x.contents (.ti none) := ⟨rfl, by simp⟩
  exact h.simulate (R := fun s m => Holds s.1 m s.2) (fun hR hs => holds_step hR hs) hstart

/-- **The bridge is a memory**: in every run, debug sessions included, the cycles that are through
    are those of one memory that serves them one after the other, and where no write is under
    way it is what is stored. -/
theorem bus_refines {x x' : TopLevel} {p : Phase} {es : List (Option (BusCycle × Lanes))}
    (h : Path CpuStep (x, .ti none) es (x', p)) :
    ∃ m, Path Memory.Step x.contents (es.filterMap id) m ∧ (¬ p.Writes → x'.contents = m) := by
  obtain ⟨m, hpath, hm⟩ := path_holds h
  exact ⟨m, hpath, hm.contents⟩

section
variable {x : TopLevel} {c : BusCycle} {inp : Nat → Pins} {k : Nat}

/-- The clocks with ADS#: READY# is high after each. -/
theorem ads_clocks (h : ∀ j < k, Drives c (inp j)) (hads : ∀ j < k, (inp j).adsN = false) :
    Holds (x.run inp k) x.contents (.t1 c) ∧ (0 < k → (x.run inp k).bc = .initBusCycle) := by
  induction k with
  | zero => exact ⟨rfl, fun h0 => absurd h0 (Nat.lt_irrefl 0)⟩
  | succ k ih =>
    have hlow := hads k (Nat.lt_succ_self k)
    obtain ⟨hholds, -⟩ := ih (fun j hj => h j (Nat.lt_succ_of_lt hj))
      fun j hj => hads j (Nat.lt_succ_of_lt hj)
    obtain ⟨_, rfl, hnext⟩ := holds_step hholds
      (.t1 hlow (h k (Nat.lt_succ_self k)) (.inl rfl))
    refine ⟨hnext, fun _ => ?_⟩
    show (x.run inp k).bc.clk (inp k).adsN = _
    rw [hlow]
    rfl

/-- **A cycle of the CPU** from any state of the bridge, with ADS# in its first `k` clocks: READY#
    is high in the clocks after the first up to `k`, it is low in the next one, and the memory has
    served the cycle then. -/
theorem cycle_served (x : TopLevel) (hk : 0 < k) (h : ∀ j < k + 2, Drives c (inp j))
    (hads : ∀ j < k + 2, (inp j).adsN = decide (k ≤ j))
    (hd : c.wr = true → (inp k).d = c.d ∧ (inp (k + 1)).d = c.d) :
    (∀ j, 0 < j → j ≤ k → (x.run inp j).readyN (inp j) = true) ∧
      (x.run inp (k + 1)).readyN (inp (k + 1)) = false ∧
      ((x.run inp (k + 1)).lanes (inp (k + 1)), (x.run inp (k + 2)).contents) =
        x.contents.serve c := by
  have hlow : ∀ j < k, (inp j).adsN = false := by
    intro j hj
    rw [hads j (by omega), decide_eq_false_iff_not]
    omega
  have hhigh : ∀ j < 2, (inp (k + j)).adsN = true := by
    intro j hj
    rw [hads (k + j) (by omega), decide_eq_true_iff]
    exact Nat.le_add_right k j
  have hclocks : ∀ j ≤ k, Holds (x.run inp j) x.contents (.t1 c) ∧
      (0 < j → (x.run inp j).bc = .initBusCycle) := fun j hj =>
    ads_clocks (fun i hi => h i (by omega)) fun i hi => hlow i (by omega)
  have hready : ∀ j, 0 < j → j ≤ k → (x.run inp j).readyN (inp j) = true := by
    intro j h0 hj
    unfold TopLevel.readyN
    rw [(h j (by omega)).detached, (hclocks j hj).2 h0]
    rfl
  -- the last clock with ADS#, and the two after it
  obtain ⟨k, rfl⟩ := Nat.exists_eq_succ_of_ne_zero (Nat.ne_of_gt hk)
  obtain ⟨_, rfl, h1⟩ := holds_step (hclocks k (Nat.le_succ k)).1
    (.t1 (hlow k (Nat.lt_succ_self k)) (h k (by omega)) (.inr rfl))
  obtain ⟨_, rfl, h2⟩ := holds_step h1
    (.wait (hhigh 0 (by decide)) (h (k + 1) (by omega)) fun hw => (hd hw).1)
  have hlast : (x.run inp (k + 1 + 1)).readyN (inp (k + 1 + 1)) = false := by
    have hbc : (x.run inp (k + 1 + 1)).bc = { readyN := false, state := .t2 } := by
      show (x.run inp (k + 1)).bc.clk (inp (k + 1)).adsN = _
      rw [(hclocks (k + 1) (Nat.le_refl _)).2 hk, hhigh 0 (by decide)]
      rfl
    unfold TopLevel.readyN
    rw [(h (k + 1 + 1) (by omega)).detached, hbc]
    rfl
  obtain ⟨m, hserve, h3⟩ := holds_step h2 (.done (hhigh 1 (by decide)) (h (k + 1 + 1) (by omega))
    (fun hw => (hd hw).2) hlast (.inl rfl))
  refine ⟨hready, hlast, hserve.symm ▸ ?_⟩
  exact Prod.ext rfl h3.1

end

/-- The pins of a cycle, with ADS# for two clocks. -/
def BusCycle.pins (c : BusCycle) (k : Nat) : Pins :=
  { a := c.a, bheN := c.bheN, bleN := c.bleN, adsN := decide (2 ≤ k), d := c.d, wr := c.wr,
    mio := c.mio, ocdEn := false, svDout := 0, svReadyN := true }

theorem BusCycle.drives (c : BusCycle) (k : Nat) : Drives c (c.pins k) := ⟨rfl, rfl⟩

/-- The upper byte of 0xBEEF, written to the address 0xF8000. -/
def highByte : BusCycle := ⟨0x7C000, false, true, true, true, 0xBEEF⟩

/-- It is written in a run. -/
theorem bus_refines_write : ∃ x m,
    Path CpuStep (blank, .ti none) [none, none, none, none, some (highByte, none, none)]
      (x, .ti (some highByte)) ∧
    Path Memory.Step blank.contents [(highByte, none, none)] m ∧ x.contents = m := by
  have hidle : CpuStep (blank, .ti none) none
      (blank.clk { highByte.pins 2 with wr := false }, .t1 highByte) :=
    .idle rfl rfl (.inl rfl) (.inr ⟨_, rfl⟩)
  have hpath := Path.cons hidle (.cons (.t1 rfl (highByte.drives 0) (.inl rfl)) (.cons
    (.t1 rfl (highByte.drives 1) (.inr rfl)) (.cons
    (.wait rfl (highByte.drives 2) fun _ => rfl) (.cons
    (.done rfl (highByte.drives 3) (fun _ => rfl) rfl (.inl rfl)) (.nil _)))))
  obtain ⟨m, hm, hcontents⟩ := bus_refines hpath
  exact ⟨_, m, hpath, hm, hcontents id⟩

theorem cycle_served_ram :
    (blank.run highByte.pins 4).contents (.internal 0) = 0xBE00 := by
  have hdrives : ∀ j < 2 + 2, Drives highByte (highByte.pins j) := fun j _ => highByte.drives j
  obtain ⟨-, -, hserve⟩ := cycle_served blank (by decide) hdrives (fun _ _ => rfl)
    fun _ => ⟨rfl, rfl⟩
  have hcontents := congrArg Prod.snd hserve
  exact (congrFun hcontents (.internal 0)).trans (by decide)

/-! ## 6. The image -/

/-- `init_file` of internal_ram.v: the words of the RAM are the values of the file. -/
def Loads (words : BitVec 14 → Word) (entries : List (Nat × Nat)) : Prop :=
  ∀ e ∈ entries, words (BitVec.ofNat 14 e.1) = BitVec.ofNat 16 e.2

/-- How the Makefile of the BIOS calls bin2mif. -/
def mifArgs : List Tools.Bin2mif.Opt := [.b 0xF8000, .i "bios.bin" 0xF8000 0x8000]

/-- A word of the second half of the file. -/
def biosWord (bin : List UInt8) (w : Nat) : Word :=
  (bin.getD (0x8000 + 2 * w + 1) 0).toBitVec ++ (bin.getD (0x8000 + 2 * w) 0).toBitVec

def BusCycle.WritesRam (c : BusCycle) : Prop :=
  c.wr = true ∧ c.mio = true ∧ ∃ w, cell c.a = some (.internal w)

section
variable {fs : String → Option (List UInt8)} {bin : List UInt8}

/-- **What bin2mif makes of the BIOS**, of 64K as linker.ld has it. -/
theorem bios_mif (hbin : fs "bios.bin" = some bin) (hlen : bin.length = 0x10000) :
    ∃ text entries, Tools.Bin2mif.main fs mifArgs = some text ∧
      Tools.Bin2mif.readMif text = some (2 ^ 14, entries) ∧
      ∀ words, Loads words entries → ∀ w, words w = biosWord bin w.toNat := by
  have hzero : (0 : Tools.Bin2mif.Word).toNat < 2 ^ 62 := by decide
  obtain ⟨mem, hload, hmem⟩ := Tools.Bin2mif.loadFile_eq (by decide) (bin.drop 0x8000)
    ⟨16, .HEX, .HEX, Vector.replicate Tools.Bin2mif.conf.d Tools.Bin2mif.conf.defaultValue⟩ hzero
  refine ⟨_, _, ?_, Tools.Bin2mif.readMif_outputMif mem, fun words hwords w => ?_⟩
  · have hseek : Tools.Bin2mif.seekIn bin 0x8000 = some (bin.drop 0x8000) := if_neg (by decide)
    have hfirst : ((0xF8000 - 0xF8000 : Tools.Bin2mif.Word) >>> 1) = 0 := by decide
    have hconf : mifArgs.foldl Tools.Bin2mif.Conf.arg Tools.Bin2mif.conf =
        { Tools.Bin2mif.conf with
          baseAddr := 0xF8000, input := ["bios.bin"], laddr := [0xF8000], loffset := [0x8000] } :=
      rfl
    unfold Tools.Bin2mif.main
    rw [hconf]
    simp only [Tools.Bin2mif.loadFiles, Option.bind_eq_bind, hbin, hseek, hfirst,
      Option.bind_some]
    rw [hload]
    rfl
  · have hw : w.toNat < Tools.Bin2mif.conf.d := w.isLt
    have hword := hwords (w.toNat, mem.get ⟨w.toNat, hw⟩)
      (List.mem_map.mpr ⟨⟨w.toNat, hw⟩, List.mem_finRange _, rfl⟩)
    have hlt : 0x8000 + 2 * w.toNat + 1 < bin.length := by
      have := w.isLt
      omega
    have hget : mem.get ⟨w.toNat, hw⟩ = (bin.getD (0x8000 + 2 * w.toNat) 0).toNat +
        256 * (bin.getD (0x8000 + 2 * w.toNat + 1) 0).toNat := by
      have hdrop : ∀ k, (bin.drop 0x8000)[k]? = bin[0x8000 + k]? := fun k => List.getElem?_drop
      have hlow : bin[0x8000 + 2 * w.toNat]? = some (bin.getD (0x8000 + 2 * w.toNat) 0) := by
        rw [List.getD_eq_getElem?_getD, List.getElem?_eq_getElem (by omega)]
        rfl
      have hzero : (0 : Tools.Bin2mif.Word).toNat = 0 := rfl
      rw [hmem, hzero, if_pos (Nat.zero_le _), Nat.sub_zero]
      unfold Tools.Bin2mif.wordOf
      rw [hdrop, hdrop, hlow, List.getD_eq_getElem?_getD (i := 0x8000 + 2 * w.toNat + 1)]
      rfl
    rw [BitVec.ofNat_toNat, BitVec.setWidth_eq, hget] at hword
    rw [hword, ← Tools.Bin2mif.halves]
    refine BitVec.eq_of_toNat_eq ?_
    unfold biosWord
    have hlow := (bin.getD (0x8000 + 2 * w.toNat) 0).toNat_lt
    have hhigh := (bin.getD (0x8000 + 2 * w.toNat + 1) 0).toNat_lt
    rw [BitVec.toNat_append, BitVec.toNat_ofNat, Nat.mod_eq_of_lt]
    · rfl
    · rw [Tools.Bin2mif.halves]
      omega

/-- The internal RAM keeps its words while no cycle writes there. -/
theorem path_ram {m m' : Memory} {es : List (BusCycle × Lanes)} (h : Path Memory.Step m es m')
    (hes : ∀ e ∈ es, ¬ e.1.WritesRam) {e : BusCycle × Lanes} (he : e ∈ es) (hwr : e.1.wr = false)
    (hmio : e.1.mio = true) {w : BitVec 14} (hw : cell e.1.a = some (.internal w)) :
    e.2 = lanes e.1.bheN e.1.bleN (m (.internal w)) := by
  induction h with
  | nil => cases he
  | @cons m m₁ _ e₁ _ hs _ ih =>
    have hserve : m.serve e₁.1 = (e₁.2, m₁) := hs
    have hout : (m.serve e₁.1).1 = e₁.2 := congrArg Prod.fst hserve
    have hnext : m.write e₁.1 = m₁ := congrArg Prod.snd hserve
    rcases List.mem_cons.mp he with rfl | he
    · rw [← hout]
      unfold Memory.serve Memory.read
      dsimp only
      rw [if_neg (by simp [hwr]), if_pos hmio, hw]
      rfl
    · have hkept : m₁ (.internal w) = m (.internal w) := by
        have hno := hes e₁ List.mem_cons_self
        rw [← hnext]
        unfold Memory.write
        split
        · rename_i hwrites
          cases hcell : cell e₁.1.a with
          | none => rfl
          | some k =>
            cases k with
            | internal w' => exact absurd ⟨hwrites.1, hwrites.2, w', hcell⟩ hno
            | sram w' => exact Function.update_of_ne (by simp) _ _
        · rfl
      rw [ih (fun e h => hes e (List.mem_cons_of_mem _ h)) he, hkept]

/-- In every run of the bridge with this image in the internal RAM, as long as nothing is written
    there, what is read in either window of it are these words. -/
def ReadsRam (entries : List (Nat × Nat)) (word : BitVec 14 → Word) : Prop :=
  ∀ {x x' : TopLevel} {p : Phase} {es : List (Option (BusCycle × Lanes))},
    Loads x.ram.words entries → Path CpuStep (x, .ti none) es (x', p) →
    (∀ e ∈ es.filterMap id, ¬ e.1.WritesRam) →
    ∀ e ∈ es.filterMap id, e.1.wr = false → e.1.mio = true →
      ∀ w, cell e.1.a = some (.internal w) → e.2 = lanes e.1.bheN e.1.bleN (word w)

/-- **The BIOS is there**: what bin2mif makes of the file of the BIOS is read as the bytes of its
    second half. -/
theorem image_read (hbin : fs "bios.bin" = some bin) (hlen : bin.length = 0x10000) :
    ∃ text entries, Tools.Bin2mif.main fs mifArgs = some text ∧
      Tools.Bin2mif.readMif text = some (2 ^ 14, entries) ∧
      ReadsRam entries fun w => biosWord bin w.toNat := by
  obtain ⟨text, entries, hmain, hmif, hwords⟩ := bios_mif hbin hlen
  refine ⟨text, entries, hmain, hmif, fun hload hpath hes e he hwr hmio w hw => ?_⟩
  obtain ⟨m, hmem, -⟩ := path_holds hpath
  rw [path_ram hmem hes he hwr hmio hw]
  exact congrArg _ (hwords _ hload w)

/-- A file of HLT. -/
theorem image_read_hlt : ∃ text entries,
    Tools.Bin2mif.main (fun _ => some (List.replicate 0x10000 0xF4)) mifArgs = some text ∧
      Tools.Bin2mif.readMif text = some (2 ^ 14, entries) ∧
      ReadsRam entries fun w => biosWord (List.replicate 0x10000 0xF4) w.toNat :=
  image_read rfl (List.length_replicate)

end

end LsePc.Bridge
