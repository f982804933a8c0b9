/-
  File:      LsePc/Bridge/Memory.lean
  Subject:   The memories of the bridge (sw/bridge/rtl: bus_control.v, memory_control.v,
             internal_ram.v and the wires of top_level.v), clock by clock.

  * `BusControl.clk`: the bus controller, which also runs while the OCD is attached;
  * `MemoryControl`: the inputs of memory_control.v, with its wires as functions of them;
  * `Pins`, `TopLevel`, `TopLevel.clk`: top_level.v with the two memories. It muxes the
    select and write signals of the SRAM on `ocd_en`, but memory_control.v gets the `wr` of
    the CPU: `bc_wr`, which is 0 while the OCD is attached, goes nowhere;
  * **result** (`debug_keeps_memory_iff`): while the OCD is attached nothing is written,
    exactly if the CPU writes nothing to the addresses of the internal RAM.

  A signal that is active low keeps its level.
-/
import LsePc.Bridge.Ocd

namespace LsePc.Bridge

open LsePc.Lib

/-! ## 1. bus_control.v -/

inductive BusState where
  | idle | t1 | t2
  deriving DecidableEq, Repr, Inhabited

structure BusControl where
  readyN : Bool
  state : BusState
  deriving DecidableEq, Repr, Inhabited

namespace BusControl

/-- The `initial` block. -/
def initial : BusControl := { readyN := false, state := .idle }

def oe (b : BusControl) : Bool := b.state == .t2
def bce (b : BusControl) : Bool := b.state != .idle

def initBusCycle : BusControl := { readyN := true, state := .t1 }

def refreshFsm (b : BusControl) : BusControl :=
  match b.state with
  | .t1 => { readyN := false, state := .t2 }
  | .idle | .t2 => b

def clk (b : BusControl) (adsN : Bool) : BusControl :=
  if !adsN then initBusCycle else b.refreshFsm

end BusControl

/-! ## 2. memory_control.v -/

/-- The inputs; `addr` are the lines A23 to A1. -/
structure MemoryControl where
  cs : Bool
  addr : BitVec 23
  dataIn : Word
  low : Bool
  high : Bool
  wr : Bool

namespace MemoryControl

def internalRamCs (m : MemoryControl) : Bool :=
  -- addr[23:15]
  m.cs && (m.addr.extractLsb' 14 9 == 0x1FF || m.addr.extractLsb' 14 9 == 0x01F)

def internalRamWr (m : MemoryControl) : Bool := if m.internalRamCs then m.wr else false

def ramcs (m : MemoryControl) : Bool :=
  -- addr[23:16], addr[23:20]
  !(m.cs && (decide (m.addr.extractLsb' 15 8 < 0x0A) || m.addr.extractLsb' 19 4 == 0x1))

def ramwe (m : MemoryControl) : Bool := if !m.ramcs then !m.wr else true

def dataOut (m : MemoryControl) (internalRamQ : Word) : Word :=
  let internalRamOut := if m.internalRamCs then internalRamQ else 0
  if m.cs then internalRamOut else 0

end MemoryControl

/-! ## 3. The memories -/

/-- The bytes of `d` that are enabled, the others of `w`. -/
def byteena (high low : Bool) (d w : Word) : Word :=
  (if high then d.extractLsb' 8 8 else w.extractLsb' 8 8) ++
    (if low then d.extractLsb' 0 8 else w.extractLsb' 0 8)

/-- `altsyncram`: the word that the last edge has read, and the output, which is registered too.
    A write shows the old data. -/
structure InternalRam where
  words : BitVec 14 → Word
  latch : Word
  q : Word

def InternalRam.edge (r : InternalRam) (m : MemoryControl) : InternalRam :=
  let address := m.addr.extractLsb' 0 14
  { words := if m.internalRamWr then
        Function.update r.words address (byteena m.high m.low m.dataIn (r.words address))
      else r.words
    latch := r.words address
    q := r.latch }

/-! ## 4. top_level.v -/

/-- The bus of the CPU in one clock, and what the supervisor drives. -/
structure Pins where
  a : BitVec 23
  bheN : Bool
  bleN : Bool
  adsN : Bool
  d : Word
  wr : Bool
  mio : Bool
  ocdEn : Bool
  svDout : Word
  svReadyN : Bool

/-- The bus controller and the memories; the SRAM has the lines A19 to A1. -/
structure TopLevel where
  bc : BusControl
  ram : InternalRam
  sram : BitVec 19 → Word

namespace TopLevel

variable (x : TopLevel) (i : Pins)

/-- The instance `mem`. -/
def mem : MemoryControl :=
  { cs := x.bc.bce && i.mio, addr := i.a, dataIn := i.d, low := !i.bleN, high := !i.bheN,
    wr := i.wr }

def ramcs : Bool := if i.ocdEn then true else (x.mem i).ramcs

def ramwe : Bool := if i.ocdEn then true else (x.mem i).ramwe

def dout : Word := if i.ocdEn then i.svDout else (x.mem i).dataOut x.ram.q

def readyN : Bool := if i.ocdEn then i.svReadyN else x.bc.readyN

/-- The SRAM is selected for writing. -/
def sramWrite : Bool := !x.ramcs i && !x.ramwe i

/-- A word of the internal RAM is written. -/
def ramWrite : Bool := (x.mem i).internalRamWr

/-- One rising edge. -/
def clk : TopLevel :=
  let address := i.a.extractLsb' 0 19
  { bc := x.bc.clk i.adsN
    ram := x.ram.edge (x.mem i)
    sram := if x.sramWrite i then
        Function.update x.sram address (byteena (!i.bheN) (!i.bleN) i.d (x.sram address))
      else x.sram }

/-- `n` clocks of a trace. -/
abbrev run (inp : Nat → Pins) (n : Nat) : TopLevel := clocks clk x inp n

end TopLevel

/-! ## 5. The OCD attached -/

section
variable {x : TopLevel} {i : Pins}

/-- The CPU writes to an address of the internal RAM, in or after a bus cycle. -/
def WritesInternal (x : TopLevel) (i : Pins) : Prop :=
  x.bc.state ≠ .idle ∧ i.mio = true ∧ i.wr = true ∧
    (i.a.extractLsb' 14 9 = 0x1FF ∨ i.a.extractLsb' 14 9 = 0x01F)

theorem sramWrite_attached (h : i.ocdEn = true) : x.sramWrite i = false := by
  simp [TopLevel.sramWrite, TopLevel.ramcs, h]

theorem internalRamWr_eq (m : MemoryControl) : m.internalRamWr = (m.internalRamCs && m.wr) := by
  unfold MemoryControl.internalRamWr
  cases m.internalRamCs <;> rfl

theorem ramWrite_iff : x.ramWrite i = true ↔ WritesInternal x i := by
  simp only [TopLevel.ramWrite, internalRamWr_eq, MemoryControl.internalRamCs, TopLevel.mem,
    BusControl.bce, WritesInternal, Bool.and_eq_true, Bool.or_eq_true, beq_iff_eq, bne_iff_ne]
  constructor
  · intro h
    obtain ⟨⟨⟨hs, hm⟩, ha⟩, hw⟩ := h
    exact ⟨hs, hm, hw, ha⟩
  · intro h
    obtain ⟨hs, hm, hw, ha⟩ := h
    exact ⟨⟨⟨hs, hm⟩, ha⟩, hw⟩

/-- Nothing is written in this clock. -/
def Still (x : TopLevel) (i : Pins) : Prop := x.sramWrite i = false ∧ x.ramWrite i = false

theorem still_attached_iff (h : i.ocdEn = true) : Still x i ↔ ¬ WritesInternal x i := by
  rw [← ramWrite_iff, Bool.not_eq_true]
  exact and_iff_right (sramWrite_attached h)

theorem clk_still (h : Still x i) :
    (x.clk i).sram = x.sram ∧ (x.clk i).ram.words = x.ram.words := by
  obtain ⟨hs, hr⟩ := h
  constructor
  · rw [TopLevel.clk, hs]
    rfl
  · change (if (x.mem i).internalRamWr then _ else _) = _
    rw [show (x.mem i).internalRamWr = false from hr]
    rfl

/-- The contents of both memories after clocks in which nothing is written. -/
theorem run_still {inp : Nat → Pins} {n : Nat} (h : ∀ k < n, Still (x.run inp k) (inp k)) :
    (x.run inp n).sram = x.sram ∧ (x.run inp n).ram.words = x.ram.words := by
  induction n with
  | zero => exact ⟨rfl, rfl⟩
  | succ n ih =>
    obtain ⟨hs, hr⟩ := ih fun k hk => h k (Nat.lt_succ_of_lt hk)
    obtain ⟨hs', hr'⟩ := clk_still (h n (Nat.lt_succ_self n))
    exact ⟨hs'.trans hs, hr'.trans hr⟩

end

/-- **Debugging does not modify memory** exactly if the CPU writes nothing to the internal RAM:
    over any clocks in all of which the OCD is attached, from any state. -/
theorem debug_keeps_memory_iff (x : TopLevel) {inp : Nat → Pins} {n : Nat}
    (hocd : ∀ k < n, (inp k).ocdEn = true) :
    ((∀ k < n, Still (x.run inp k) (inp k)) ↔ ∀ k < n, ¬ WritesInternal (x.run inp k) (inp k)) ∧
      ((∀ k < n, ¬ WritesInternal (x.run inp k) (inp k)) →
        (x.run inp n).sram = x.sram ∧ (x.run inp n).ram.words = x.ram.words) := by
  have hiff : (∀ k < n, Still (x.run inp k) (inp k)) ↔
      ∀ k < n, ¬ WritesInternal (x.run inp k) (inp k) :=
    forall_congr' fun k => forall_congr' fun hk => still_attached_iff (hocd k hk)
  exact ⟨hiff, fun h => run_still (hiff.mpr h)⟩

/-- The bridge after configuration. -/
def blank : TopLevel :=
  { bc := .initial, ram := { words := fun _ => 0, latch := 0, q := 0 }, sram := fun _ => 0 }

/-- The OCD attached, the CPU writes the word 0xDEAD to the address `a`. -/
def pushes (a : BitVec 23) (k : Nat) : Pins :=
  { a := a, bheN := false, bleN := false, adsN := decide (0 < k), d := 0xDEAD, wr := true,
    mio := true, ocdEn := true, svDout := 0, svReadyN := true }

/-- A push to the SRAM, at 0x7FFE. -/
theorem debug_keeps_sram : (blank.run (pushes 0x3FFF) 2).sram = blank.sram ∧
    (blank.run (pushes 0x3FFF) 2).ram.words = blank.ram.words := by
  refine (debug_keeps_memory_iff blank (fun _ _ => rfl)).2 fun k _ h => ?_
  exact absurd h.2.2.2 (by simp [pushes])

/-- A push to the internal RAM, at 0xFFFEE. -/
theorem debug_writes_ram : (∀ k < 2, (pushes 0x7FFF7 k).ocdEn = true) ∧
    (blank.run (pushes 0x7FFF7) 2).ram.words ≠ blank.ram.words := by
  refine ⟨fun _ _ => rfl, fun h => ?_⟩
  have hword := congrFun h 0x3FF7
  exact absurd hword (by decide)

end LsePc.Bridge
