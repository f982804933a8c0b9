/-
  File:      LsePc/Bridge/Ocd.lean
  Subject:   The On-Chip Debug unit (sw/bridge/rtl/ocd.v) and the memory it runs
             from, clock by clock.

  The unit is a five-state processor on a dual-port memory it shares with the
  supervisor: words 0 to 255 are the program, words 256 to 511 the data
  registers R0 to R15 (only the first sixteen are addressed).

  * `Opc`, `op`, `addr`, `s`, `d`, `instrAttach` ... `instrNop`: the decoding
    wires of ocd.v, one by one;
  * `source`, `execWait`, `memLoad`, `memStore`: the shared wires;
  * `Ocd`, `resetOcd`, `doFetch` ... `doStoreFetch`, `Ocd.tick`: the registers
    and the tasks. A non-blocking assignment reads the registers before the
    edge (`o`) and the last one to a register wins (`r` is threaded through in
    the order of the source);
  * `OcdMem`, `OcdSys.clk`: the memory port s2 (supervisor_qsys.qsys, ocd_mem,
    slave2Latency 1) registers the address present at an edge and shows its
    word after it.

  A signal that is active low keeps its level: `adsN = false` is ADS# asserted.
-/
import LsePc.Lib.Clock
import Mathlib.Logic.Function.Basic

namespace LsePc.Bridge

open LsePc.Lib

/-- A word of the OCD memory and of the 386 data bus. -/
abbrev Word := BitVec 16

/-! ## 1. Decoding -/

/-- The opcode groups of ocd.v. -/
def ocdCtl : BitVec 8 := 0 <<< 5
def ldSt : BitVec 8 := 1 <<< 5
def cpuCtl : BitVec 8 := 2 <<< 5
def flowCtl : BitVec 8 := 3 <<< 5
def misc : BitVec 8 := 7 <<< 5

namespace Opc

def attach : BitVec 8 := ocdCtl ||| 0b00010
def detach : BitVec 8 := ocdCtl ||| 0b00011
def exit : BitVec 8 := ocdCtl ||| 0b00000

def ldi : BitVec 8 := ldSt ||| 0b00000
def mov : BitVec 8 := ldSt ||| 0b00001
def ldd : BitVec 8 := ldSt ||| 0b00100
def ldal : BitVec 8 := ldSt ||| 0b00010
def ldah : BitVec 8 := ldSt ||| 0b00011
def ldwr : BitVec 8 := ldSt ||| 0b00101
def lddc : BitVec 8 := ldSt ||| 0b00110
def ldmio : BitVec 8 := ldSt ||| 0b00111
def ldcmp : BitVec 8 := ldSt ||| 0b01000
def clr : BitVec 8 := ldSt ||| 0b01001
def std : BitVec 8 := ldSt ||| 0b10100

def start : BitVec 8 := cpuCtl ||| 0b00000
def reset : BitVec 8 := cpuCtl ||| 0b00001
def waitads : BitVec 8 := cpuCtl ||| 0b00010
def waitlock : BitVec 8 := cpuCtl ||| 0b01000
def waitio : BitVec 8 := cpuCtl ||| 0b01001
def ready : BitVec 8 := cpuCtl ||| 0b00011
def int : BitVec 8 := cpuCtl ||| 0b00100
def nmi : BitVec 8 := cpuCtl ||| 0b00101
def hold : BitVec 8 := cpuCtl ||| 0b00110

def cmp : BitVec 8 := flowCtl ||| 0b00000
def ba : BitVec 8 := flowCtl ||| 0b10000
def beq : BitVec 8 := flowCtl ||| 0b10001
def bne : BitVec 8 := flowCtl ||| 0b10011

def nop : BitVec 8 := misc ||| 0b11111

end Opc

/-- `instr[15:8]`. -/
def op (w : Word) : BitVec 8 := w.extractLsb' 8 8
/-- `instr[7:0]`. -/
def addr (w : Word) : BitVec 8 := w.extractLsb' 0 8
/-- `instr[7:4]`. -/
def s (w : Word) : BitVec 4 := w.extractLsb' 4 4
/-- `instr[3:0]`. -/
def d (w : Word) : BitVec 4 := w.extractLsb' 0 4

/-- The shape of every `instr_*` wire: the opcode field against one code. -/
def instrIs (code : BitVec 8) (w : Word) : Bool := op w == code

def instrAttach (w : Word) : Bool := instrIs Opc.attach w
def instrDetach (w : Word) : Bool := instrIs Opc.detach w
def instrExit (w : Word) : Bool := instrIs Opc.exit w
def instrLdi (w : Word) : Bool := instrIs Opc.ldi w
def instrLdcmp (w : Word) : Bool := instrIs Opc.ldcmp w
def instrClr (w : Word) : Bool := instrIs Opc.clr w
def instrMov (w : Word) : Bool := instrIs Opc.mov w
def instrLdd (w : Word) : Bool := instrIs Opc.ldd w
def instrLdal (w : Word) : Bool := instrIs Opc.ldal w
def instrLdah (w : Word) : Bool := instrIs Opc.ldah w
def instrLdwr (w : Word) : Bool := instrIs Opc.ldwr w
def instrLddc (w : Word) : Bool := instrIs Opc.lddc w
def instrLdmio (w : Word) : Bool := instrIs Opc.ldmio w
def instrStd (w : Word) : Bool := instrIs Opc.std w
def instrStart (w : Word) : Bool := instrIs Opc.start w
def instrReset (w : Word) : Bool := instrIs Opc.reset w
def instrWaitads (w : Word) : Bool := instrIs Opc.waitads w
def instrWaitlock (w : Word) : Bool := instrIs Opc.waitlock w
def instrWaitio (w : Word) : Bool := instrIs Opc.waitio w
def instrReady (w : Word) : Bool := instrIs Opc.ready w
def instrInt (w : Word) : Bool := instrIs Opc.int w
def instrNmi (w : Word) : Bool := instrIs Opc.nmi w
def instrHold (w : Word) : Bool := instrIs Opc.hold w
def instrCmp (w : Word) : Bool := instrIs Opc.cmp w
def instrBeq (w : Word) : Bool := instrIs Opc.beq w
def instrBne (w : Word) : Bool := instrIs Opc.bne w
def instrBa (w : Word) : Bool := instrIs Opc.ba w
def instrNop (w : Word) : Bool := instrIs Opc.nop w

/-! ## 2. The shared wires -/

/-- What the unit sees of the 386 in one clock. -/
structure OcdIn where
  adsN : Bool
  lockN : Bool
  a : BitVec 24
  din : Word
  hlda : Bool
  wr : Bool
  dc : Bool
  mio : Bool
  deriving DecidableEq, Repr, Inhabited

def regOffset : BitVec 9 := 0x100

def memLoad (w : Word) : Bool :=
  instrLdi w || instrMov w || instrLdcmp w || instrCmp w || instrStd w

def memStore (w : Word) : Bool :=
  instrLdi w || instrMov w || instrLdd w || instrLdal w || instrLdah w || instrLdwr w ||
    instrLddc w || instrLdmio w || instrClr w

def execWait (w : Word) (i : OcdIn) : Bool :=
  (instrWaitads w && i.adsN) ||
  (instrWaitlock w && (i.adsN || i.lockN)) ||
  (instrWaitio w && (i.adsN || i.mio)) ||
  (instrHold w && !i.hlda) ||
  instrExit w

/-- `{16{b}}` in the 24-bit context of `source`. -/
def rep16 (b : Bool) : BitVec 24 := (BitVec.fill 16 b).setWidth 24

/-- A one-bit term in the 24-bit context of `source`. -/
def bit24 (b : Bool) : BitVec 24 := (BitVec.ofBool b).setWidth 24

/-- The `source` wire. The widest operand is the 24-bit address, so every term is
    extended to 24 bits and the sum is cut to the 16 bits of the wire. -/
def source (w : Word) (i : OcdIn) (memReaddata : Word) : Word :=
  ((rep16 (memLoad w) &&& memReaddata.setWidth 24) |||
   (rep16 (instrLdd w) &&& i.din.setWidth 24) |||
   (rep16 (instrLdal w) &&& i.a) |||
   (rep16 (instrLdal w) &&& (i.a >>> 16)) |||
   bit24 (instrLdwr w && i.wr) |||
   bit24 (instrLddc w && i.dc) |||
   bit24 (instrLdmio w && i.mio)).setWidth 16

/-! ## 3. The registers and the tasks -/

/-- `reg [2:0] state`: the codes ocd.v defines (`ST_EXEC_STORE` has no branch). -/
inductive OcdState where
  | fetch | load | exec | execStore | store | storeFetch
  deriving DecidableEq, Repr, Inhabited

/-- The registers of the unit, its registered outputs included. -/
structure Ocd where
  en : Bool
  stop : Bool
  dout : Word
  readyN : Bool
  hold : Bool
  intr : Bool
  nmi : Bool
  reset : Bool
  memAddress : BitVec 9
  memWrite : Bool
  memWritedata : Word
  state : OcdState
  instr : Word
  pc : BitVec 8
  nextPc : BitVec 8
  cmpr : Word
  deriving DecidableEq, Repr, Inhabited

/-- What `rst` sets; the registers that drive the 386 keep their values. -/
def resetOcd (o : Ocd) : Ocd :=
  { o with
    stop := false
    state := .store
    pc := 0xFF
    nextPc := 0
    memAddress := 0
    memWrite := false
    instr := 0 }

def doFetch (o : Ocd) (memReaddata : Word) : Ocd :=
  { o with
    nextPc := o.pc + 1
    instr := memReaddata
    -- the assignment context is nine bits wide: `pc + 1` does not wrap at 255
    memAddress := if op memReaddata = Opc.ldi then o.pc.setWidth 9 + 1
      else regOffset ||| (s memReaddata).setWidth 9
    state := .load }

def doLoad (o : Ocd) : Ocd := { o with state := .exec }

def doExec (o : Ocd) (i : OcdIn) (memReaddata : Word) : Ocd :=
  let w := o.instr
  let src := source w i memReaddata
  let r := { o with en := if instrAttach w then true else o.en }
  let r := { r with en := if instrDetach w then false else r.en }
  let r := { r with stop := if instrExit w then true else r.stop }
  let r := { r with
    reset := if instrStart w then false else r.reset
    nmi := if instrStart w then false else r.nmi
    intr := if instrStart w then false else r.intr
    hold := if instrStart w then false else r.hold }
  let r := { r with reset := if instrReset w then true else r.reset }
  let ack := instrReady w || instrWaitads w || instrWaitlock w || instrStd w
  let r := { r with
    readyN := if ack then false else r.readyN
    hold := if ack then false else r.hold }
  let r := { r with intr := if instrInt w then true else r.intr }
  let r := { r with nmi := if instrNmi w then true else r.nmi }
  let r := { r with hold := if instrHold w then true else r.hold }
  let r := { r with dout := if instrStd w then src else r.dout }
  let r := { r with cmpr := if instrLdcmp w then src else r.cmpr }
  let r := { r with cmpr := if instrCmp w then (if src = o.cmpr then 1 else 0) else r.cmpr }
  let taken := (instrBeq w && o.cmpr != 0) || (instrBne w && o.cmpr == 0) || instrBa w
  let r := { r with nextPc := if taken then addr w else r.nextPc }
  { r with
    state := if execWait w i then .exec else .store
    memAddress := if execWait w i then r.memAddress else regOffset ||| (d w).setWidth 9
    memWritedata := if execWait w i then r.memWritedata else src
    memWrite := if !execWait w i && memStore w then true else r.memWrite }

def doStore (o : Ocd) : Ocd :=
  let w := o.instr
  let attach := instrWaitads w || instrWaitlock w || instrWaitio w
  let pc' := o.nextPc + (if instrLdi w then 1 else 0)
  { o with
    readyN := if attach then true else o.readyN
    nmi := if attach then false else o.nmi
    en := if attach then true else o.en
    memWrite := false
    state := .storeFetch
    pc := pc'
    memAddress := pc'.setWidth 9 }

def doStoreFetch (o : Ocd) : Ocd := { o with state := .fetch }

/-- The `case (state)` of the always block, `rst` released. -/
def Ocd.tick (o : Ocd) (i : OcdIn) (memReaddata : Word) : Ocd :=
  match o.state with
  | .fetch => doFetch o memReaddata
  | .load => doLoad o
  | .exec => doExec o i memReaddata
  | .execStore => o
  | .store => doStore o
  | .storeFetch => doStoreFetch o

/-! ## 4. The unit on its memory -/

/-- Port s2 of `ocd_mem`: the words and the address registered at the last edge. -/
structure OcdMem where
  words : BitVec 9 → Word
  addrQ : BitVec 9
  deriving Inhabited

def OcdMem.readdata (m : OcdMem) : Word := m.words m.addrQ

/-- One edge of the memory: a write where `memWrite` is 1, and the address registered. -/
def OcdMem.edge (m : OcdMem) (memAddress : BitVec 9) (memWrite : Bool) (memWritedata : Word) :
    OcdMem :=
  { words := if memWrite then Function.update m.words memAddress memWritedata else m.words
    addrQ := memAddress }

/-- The unit and its memory. -/
structure OcdSys where
  ocd : Ocd
  mem : OcdMem
  deriving Inhabited

/-- One rising clock edge with `rst` low, the supervisor not writing the memory. -/
def OcdSys.clk (x : OcdSys) (i : OcdIn) : OcdSys :=
  { ocd := x.ocd.tick i x.mem.readdata
    mem := x.mem.edge x.ocd.memAddress x.ocd.memWrite x.ocd.memWritedata }

/-- `n` clocks of a trace. -/
abbrev OcdSys.run (x : OcdSys) (inp : Nat → OcdIn) (n : Nat) : OcdSys :=
  clocks OcdSys.clk x inp n

end LsePc.Bridge
