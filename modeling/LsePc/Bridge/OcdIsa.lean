/-
  File:      LsePc/Bridge/OcdIsa.lean
  Subject:   The OCD unit as a machine that executes one instruction at a time.

  ocd.v spreads an instruction over five states and reads its memory one clock
  after it sets the address up. This file says what is left when the states are
  taken away: a machine `Arch` of the registers a program can see, and `step`,
  one EXEC clock of the instruction at `pc` on the pins of that clock.

  * `Mnem`, `mnem`: the 28 instructions, named from the decoding wires;
  * `Arch`, `Arch.step`: the architectural state and one EXEC clock. An
    instruction that waits stays at its `pc` (only its pins move), an unknown
    opcode only advances, EXIT stays for good;
  * `steps`: a run on the inputs of the EXEC clocks, in order.

  What ocd.v does is kept where it differs from its documentation: LDAL ors the
  upper address bits into the lower ones and LDAH loads nothing (`source` reads
  `instr_ldal` twice).
-/
import LsePc.Bridge.Ocd
import Mathlib.Tactic.Common

namespace LsePc.Bridge

/-! ## 1. Mnemonics -/

/-- The instructions of ocd.v. -/
inductive Mnem where
  | attach | detach | exit
  | ldi | mov | ldd | ldal | ldah | ldwr | lddc | ldmio | ldcmp | clr | std
  | start | reset | waitads | waitlock | waitio | ready | int | nmi | hold
  | cmp | ba | beq | bne | nop
  deriving DecidableEq, Repr

namespace Mnem

def all : List Mnem :=
  [attach, detach, exit, ldi, mov, ldd, ldal, ldah, ldwr, lddc, ldmio, ldcmp, clr, std, start,
    reset, waitads, waitlock, waitio, ready, int, nmi, hold, cmp, ba, beq, bne, nop]

def code : Mnem → BitVec 8
  | attach => Opc.attach | detach => Opc.detach | exit => Opc.exit
  | ldi => Opc.ldi | mov => Opc.mov | ldd => Opc.ldd | ldal => Opc.ldal | ldah => Opc.ldah
  | ldwr => Opc.ldwr | lddc => Opc.lddc | ldmio => Opc.ldmio | ldcmp => Opc.ldcmp
  | clr => Opc.clr | std => Opc.std
  | start => Opc.start | reset => Opc.reset | waitads => Opc.waitads
  | waitlock => Opc.waitlock | waitio => Opc.waitio | ready => Opc.ready | int => Opc.int
  | nmi => Opc.nmi | hold => Opc.hold
  | cmp => Opc.cmp | ba => Opc.ba | beq => Opc.beq | bne => Opc.bne | nop => Opc.nop

/-- The `instr_*` wire of a mnemonic. -/
def wire : Mnem → Word → Bool
  | attach => instrAttach | detach => instrDetach | exit => instrExit
  | ldi => instrLdi | mov => instrMov | ldd => instrLdd | ldal => instrLdal | ldah => instrLdah
  | ldwr => instrLdwr | lddc => instrLddc | ldmio => instrLdmio | ldcmp => instrLdcmp
  | clr => instrClr | std => instrStd
  | start => instrStart | reset => instrReset | waitads => instrWaitads
  | waitlock => instrWaitlock | waitio => instrWaitio | ready => instrReady | int => instrInt
  | nmi => instrNmi | hold => instrHold
  | cmp => instrCmp | ba => instrBa | beq => instrBeq | bne => instrBne | nop => instrNop

theorem mem_all (m : Mnem) : m ∈ all := by cases m <;> decide

/-- No two mnemonics share an opcode. -/
theorem code_inj {m m' : Mnem} (h : m.code = m'.code) : m = m' := by
  revert h
  cases m <;> cases m' <;> decide

theorem wire_eq (m : Mnem) (w : Word) : m.wire w = (op w == m.code) := by cases m <;> rfl

end Mnem

/-- The instruction a word decodes to: the mnemonic whose wire is set. -/
def mnem (w : Word) : Option Mnem := Mnem.all.find? fun m => m.wire w

theorem mnem_eq_some {w : Word} {m : Mnem} : mnem w = some m ↔ op w = m.code := by
  unfold mnem
  constructor
  · intro h
    have hw := List.find?_some h
    rw [Mnem.wire_eq] at hw
    exact eq_of_beq hw
  · intro h
    have hsome : (Mnem.all.find? fun m => m.wire w).isSome := by
      rw [List.find?_isSome]
      exact ⟨m, Mnem.mem_all m, by rw [Mnem.wire_eq, h]; exact beq_self_eq_true _⟩
    obtain ⟨m', hm'⟩ := Option.isSome_iff_exists.mp hsome
    have hw := List.find?_some hm'
    rw [Mnem.wire_eq, h] at hw
    rw [hm', Mnem.code_inj (eq_of_beq hw)]

/-- The wire of a mnemonic is set exactly on the words that decode to it. -/
theorem Mnem.wire_mnem (m : Mnem) (w : Word) : m.wire w = decide (mnem w = some m) := by
  rw [Mnem.wire_eq, Bool.eq_iff_iff, decide_eq_true_iff, mnem_eq_some, beq_iff_eq]

/-- All decoding wires of a word, from its mnemonic: at most one is set. -/
theorem wires (w : Word) :
    instrAttach w = decide (mnem w = some .attach) ∧
    instrDetach w = decide (mnem w = some .detach) ∧
    instrExit w = decide (mnem w = some .exit) ∧
    instrLdi w = decide (mnem w = some .ldi) ∧
    instrLdcmp w = decide (mnem w = some .ldcmp) ∧
    instrClr w = decide (mnem w = some .clr) ∧
    instrMov w = decide (mnem w = some .mov) ∧
    instrLdd w = decide (mnem w = some .ldd) ∧
    instrLdal w = decide (mnem w = some .ldal) ∧
    instrLdah w = decide (mnem w = some .ldah) ∧
    instrLdwr w = decide (mnem w = some .ldwr) ∧
    instrLddc w = decide (mnem w = some .lddc) ∧
    instrLdmio w = decide (mnem w = some .ldmio) ∧
    instrStd w = decide (mnem w = some .std) ∧
    instrStart w = decide (mnem w = some .start) ∧
    instrReset w = decide (mnem w = some .reset) ∧
    instrWaitads w = decide (mnem w = some .waitads) ∧
    instrWaitlock w = decide (mnem w = some .waitlock) ∧
    instrWaitio w = decide (mnem w = some .waitio) ∧
    instrReady w = decide (mnem w = some .ready) ∧
    instrInt w = decide (mnem w = some .int) ∧
    instrNmi w = decide (mnem w = some .nmi) ∧
    instrHold w = decide (mnem w = some .hold) ∧
    instrCmp w = decide (mnem w = some .cmp) ∧
    instrBeq w = decide (mnem w = some .beq) ∧
    instrBne w = decide (mnem w = some .bne) ∧
    instrBa w = decide (mnem w = some .ba) ∧
    instrNop w = decide (mnem w = some .nop) := by
  have h := fun m : Mnem => m.wire_mnem w
  exact ⟨h .attach, h .detach, h .exit, h .ldi, h .ldcmp, h .clr, h .mov, h .ldd, h .ldal, h .ldah,
    h .ldwr, h .lddc, h .ldmio, h .std, h .start, h .reset, h .waitads, h .waitlock, h
    .waitio, h .ready, h .int, h .nmi, h .hold, h .cmp, h .beq, h .bne, h .ba, h .nop⟩

/-! ## 2. The architectural state -/

/-- What a program of the unit can see: the memory, `pc`, the compare register,
    `stop`, and the registers that drive the 386. -/
@[ext] structure Arch where
  words : BitVec 9 → Word
  pc : BitVec 8
  cmpr : Word
  stop : Bool
  en : Bool
  dout : Word
  readyN : Bool
  hold : Bool
  intr : Bool
  nmi : Bool
  reset : Bool
  deriving Inhabited

namespace Arch

/-- The program word at address `p`. -/
def prog (σ : Arch) (p : BitVec 8) : Word := σ.words (p.setWidth 9)

/-- The instruction at `pc`. -/
def instr (σ : Arch) : Word := σ.prog σ.pc

/-- The memory address of a data register. -/
def regAddr (r : BitVec 4) : BitVec 9 := regOffset ||| r.setWidth 9

/-- The data register `r`. -/
def reg (σ : Arch) (r : BitVec 4) : Word := σ.words (regAddr r)

def setReg (σ : Arch) (r : BitVec 4) (v : Word) : Arch :=
  { σ with words := Function.update σ.words (regAddr r) v }

/-- The address the unit loads the operand of an instruction from. -/
def srcAddr (σ : Arch) : BitVec 9 :=
  if op σ.instr = Opc.ldi then σ.pc.setWidth 9 + 1 else regAddr (s σ.instr)

/-- The operand: the word after an LDI, `R[s]` otherwise. -/
def operand (σ : Arch) : Word := σ.words σ.srcAddr

def next (σ : Arch) : Arch := { σ with pc := σ.pc + 1 }

def goto (σ : Arch) (p : BitVec 8) : Arch := { σ with pc := p }

/-- READY# asserted, HOLD released. -/
def ack (σ : Arch) : Arch := { σ with readyN := false, hold := false }

/-- What a completed wait leaves: READY# deasserted, NMI cleared, the unit attached. -/
def caught (σ : Arch) : Arch := { σ with readyN := true, nmi := false, en := true }

/-- The level of a pin as a word. -/
def level (b : Bool) : Word := (BitVec.ofBool b).setWidth 16

/-- The instruction table: what one EXEC clock of an instruction word does, by its
    mnemonic, with the pins of that clock. -/
def exec (σ : Arch) (i : OcdIn) (w : Word) : Option Mnem → Arch
  | some .attach => { σ with en := true }.next
  | some .detach => { σ with en := false }.next
  | some .exit => { σ with stop := true }
  | some .ldi => (σ.setReg (d w) σ.operand).next.next
  | some .mov => (σ.setReg (d w) σ.operand).next
  | some .ldd => (σ.setReg (d w) i.din).next
  | some .ldal => (σ.setReg (d w) (i.a.setWidth 16 ||| (i.a >>> 16).setWidth 16)).next
  | some .ldah => (σ.setReg (d w) 0).next
  | some .ldwr => (σ.setReg (d w) (level i.wr)).next
  | some .lddc => (σ.setReg (d w) (level i.dc)).next
  | some .ldmio => (σ.setReg (d w) (level i.mio)).next
  | some .clr => (σ.setReg (d w) 0).next
  | some .ldcmp => { σ with cmpr := σ.operand }.next
  | some .std => { σ with dout := σ.operand }.ack.next
  | some .start => { σ with reset := false, nmi := false, intr := false, hold := false }.next
  | some .reset => { σ with reset := true }.next
  | some .waitads => if i.adsN then σ.ack else σ.ack.caught.next
  | some .waitlock => if i.adsN || i.lockN then σ.ack else σ.ack.caught.next
  | some .waitio => if i.adsN || i.mio then σ else σ.caught.next
  | some .ready => σ.ack.next
  | some .int => { σ with intr := true }.next
  | some .nmi => { σ with nmi := true }.next
  | some .hold => if i.hlda then { σ with hold := true }.next else { σ with hold := true }
  | some .cmp => { σ with cmpr := if σ.operand = σ.cmpr then 1 else 0 }.next
  | some .ba => σ.goto (addr w)
  | some .beq => if σ.cmpr ≠ 0 then σ.goto (addr w) else σ.next
  | some .bne => if σ.cmpr = 0 then σ.goto (addr w) else σ.next
  | some .nop => σ.next
  | none => σ.next

/-- **One EXEC clock of the instruction at `pc`.** -/
def step (σ : Arch) (i : OcdIn) : Arch := σ.exec i σ.instr (mnem σ.instr)

/-- The word an instruction stores to `R[d]`, if it is one that stores. -/
def stored (σ : Arch) (i : OcdIn) : Option Mnem → Option Word
  | some .ldi | some .mov => some σ.operand
  | some .ldd => some i.din
  | some .ldal => some (i.a.setWidth 16 ||| (i.a >>> 16).setWidth 16)
  | some .ldah | some .clr => some 0
  | some .ldwr => some (level i.wr)
  | some .lddc => some (level i.dc)
  | some .ldmio => some (level i.mio)
  | _ => none

/-- A run on the inputs of the EXEC clocks. -/
def steps (σ : Arch) (is : List OcdIn) : Arch := is.foldl step σ

@[simp] theorem steps_nil (σ : Arch) : σ.steps [] = σ := rfl

@[simp] theorem steps_append (σ : Arch) (is js : List OcdIn) :
    σ.steps (is ++ js) = (σ.steps is).steps js := List.foldl_append ..

@[simp] theorem steps_cons (σ : Arch) (i : OcdIn) (is : List OcdIn) :
    σ.steps (i :: is) = (σ.step i).steps is := rfl

/-! ## 3. What a step leaves alone -/

@[simp] theorem next_words (σ : Arch) : σ.next.words = σ.words := rfl
@[simp] theorem next_reg (σ : Arch) (r : BitVec 4) : σ.next.reg r = σ.reg r := rfl
@[simp] theorem next_pc (σ : Arch) : σ.next.pc = σ.pc + 1 := rfl
@[simp] theorem goto_words (σ : Arch) (p : BitVec 8) : (σ.goto p).words = σ.words := rfl
@[simp] theorem ack_words (σ : Arch) : σ.ack.words = σ.words := rfl
@[simp] theorem caught_words (σ : Arch) : σ.caught.words = σ.words := rfl

/-- A data register is no program word. -/
theorem regAddr_ne_prog (r : BitVec 4) (p : BitVec 8) : regAddr r ≠ p.setWidth 9 := by
  intro h
  have hb := congrArg (fun x : BitVec 9 => x.getLsbD 8) h
  simp [regAddr, regOffset] at hb

theorem regAddr_inj {r r' : BitVec 4} : regAddr r = regAddr r' ↔ r = r' := by
  refine ⟨fun h => ?_, fun h => h ▸ rfl⟩
  have hb := congrArg (fun x : BitVec 9 => x.extractLsb' 0 4) h
  have hx : ∀ q : BitVec 4, (regAddr q).extractLsb' 0 4 = q := by decide
  simpa [hx] using hb

@[simp] theorem setReg_prog (σ : Arch) (r : BitVec 4) (v : Word) (p : BitVec 8) :
    (σ.setReg r v).prog p = σ.prog p :=
  Function.update_of_ne (regAddr_ne_prog r p).symm _ _

@[simp] theorem setReg_reg_self (σ : Arch) (r : BitVec 4) (v : Word) :
    (σ.setReg r v).reg r = v := Function.update_self ..

theorem setReg_reg_ne (σ : Arch) {r r' : BitVec 4} (h : r' ≠ r) (v : Word) :
    (σ.setReg r v).reg r' = σ.reg r' :=
  Function.update_of_ne (fun e => h (regAddr_inj.mp e)) _ _

/-- **What a step does to the memory**: the stored word goes to `R[d]`, nothing else. -/
theorem step_words (σ : Arch) (i : OcdIn) :
    (σ.step i).words = match σ.stored i (mnem σ.instr) with
      | some v => (σ.setReg (d σ.instr) v).words
      | none => σ.words := by
  unfold step
  cases mnem σ.instr with
  | none => rfl
  | some m => cases m <;> simp only [exec, stored] <;> first | rfl | (split <;> rfl)

/-- A step never writes the program. -/
theorem step_prog (σ : Arch) (i : OcdIn) (p : BitVec 8) : (σ.step i).prog p = σ.prog p := by
  unfold prog
  rw [step_words]
  cases σ.stored i (mnem σ.instr) with
  | none => rfl
  | some v => exact σ.setReg_prog _ v p

/-- A step changes no data register but `R[d]` of a storing instruction. -/
theorem step_reg (σ : Arch) (i : OcdIn) (r : BitVec 4)
    (h : σ.stored i (mnem σ.instr) = none ∨ r ≠ d σ.instr) : (σ.step i).reg r = σ.reg r := by
  unfold reg
  rw [step_words]
  cases hv : σ.stored i (mnem σ.instr) with
  | none => rfl
  | some v =>
    refine σ.setReg_reg_ne (h.resolve_left ?_) v
    rw [hv]
    exact Option.some_ne_none v

theorem steps_prog (σ : Arch) (is : List OcdIn) (p : BitVec 8) :
    (σ.steps is).prog p = σ.prog p := by
  induction is generalizing σ with
  | nil => rfl
  | cons i is ih => rw [steps_cons, ih, step_prog]

end Arch

end LsePc.Bridge
