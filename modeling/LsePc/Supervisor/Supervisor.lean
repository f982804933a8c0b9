/-
  File:      LsePc/Supervisor/Supervisor.lean
  Subject:   supervisor.c, dev.c and led.c of the supervisor.

  A function of supervisor.c changes the `struct sv`, drives the OCD unit and its own
  output ports. Where it waits for the unit the pins of that routine, its bus, decide how
  it goes on; `none` is a wait that does not end.

  * `Dev`, `findDev`, `devRead`, `devWrite`, `devLed`: the devices the supervisor emulates;
  * `Sv`, `Machine`: the `struct sv`, and with it the unit and what has been done so far
    (`out`: routines started, words exchanged, STATUS port writes, device calls, in order);
  * `svInit`, `svStop`, `svBrk`, `svIobreak`, `svCont`, `svStart`, `svGetRegs`: the
    functions, each with its `int`.
-/
import LsePc.Supervisor.Routines

namespace LsePc.Supervisor

open LsePc.Bridge

/-! ## 1. Devices -/

/-- `struct dev`; the handlers work on the `data` of the device. -/
structure Dev where
  ioaddr : Word
  size : Word
  read : Byte → Word → Word
  write : Byte → Word → Word → Byte
  data : Byte

def ledRead (reg : Byte) (offset : Word) : Word := if offset = 0 then reg.setWidth 16 else 0

def ledWrite (reg : Byte) (offset value : Word) : Byte :=
  if offset = 0 then value.setWidth 8 else reg

def devLed : Dev where
  ioaddr := 0x10
  size := 1
  read := ledRead
  write := ledWrite
  data := 0

/-- The window test of `find_dev`; C computes it in `int`. -/
def Dev.covers (d : Dev) (ioaddr : Word) : Bool :=
  decide (d.ioaddr.toNat ≤ ioaddr.toNat ∧ ioaddr.toNat < d.ioaddr.toNat + d.size.toNat)

def findDev (ds : List Dev) (ioaddr : Word) : Option Dev := ds.find? fun d => d.covers ioaddr

/-- `dev_read`; `none` is its error return. -/
def devRead (ds : List Dev) (ioaddr : Word) : Option Word :=
  (findDev ds ioaddr).map fun d => d.read d.data (d.ioaddr - ioaddr)

/-- `dev_write`: the devices after the call of the handler. -/
def devWrite : List Dev → Word → Word → Option (List Dev)
  | [], _, _ => none
  | d :: ds, ioaddr, iodata =>
    if d.covers ioaddr then
      some ({ d with data := d.write d.data (d.ioaddr - ioaddr) iodata } :: ds)
    else (devWrite ds ioaddr iodata).map fun ds' => d :: ds'

/-- `dev_register`. -/
def devRegister (ds : List Dev) (d : Dev) : List Dev := d :: ds

/-! ## 2. The state -/

/-- ST_STOP to ST_IORD. -/
inductive Status where
  | stop | running | brk16 | brk32 | iowr | iord
  deriving DecidableEq, Repr, Inhabited

/-- The value of `sv.status`. -/
def Status.code : Status → Byte
  | .stop => 0
  | .running => 1
  | .brk16 => 2
  | .brk32 => 3
  | .iowr => 4
  | .iord => 5

/-- `struct sv_regs`. -/
structure SvRegs where
  valid : Byte
  eflags : BitVec 32
  eip : BitVec 32
  eax : BitVec 32
  ecx : BitVec 32
  edx : BitVec 32
  ebx : BitVec 32
  esp : BitVec 32
  ebp : BitVec 32
  esi : BitVec 32
  edi : BitVec 32
  cs : Word
  deriving DecidableEq, Repr, Inhabited

/-- `struct sv`. -/
structure Sv where
  status : Status
  iodata : Word
  ioaddr : Word
  dev : List Dev
  regs : SvRegs
  deriving Inhabited

/-- What the supervisor does to its hardware: it starts a routine, waits for it (with the
    words that went over the data bus until then), writes the STATUS port (here with the I/O
    access the `struct sv` then holds) or calls a device of its own. -/
inductive Out where
  | run (prog : List Byte)
  | waited (driven captured : List Word)
  | status (st : Status) (ioaddr iodata : Word)
  | dev (ioaddr : Word)
  deriving DecidableEq, Repr

/-- `pins n` is the bus of the `n`th routine that is waited for, of which there were `waits`
    so far. -/
structure Machine where
  sv : Sv
  ocd : Arch
  pins : Nat → Nat → OcdIn
  waits : Nat
  out : List Out
  deriving Inhabited

namespace Machine

def run (prog : List Byte) (m : Machine) : Machine :=
  { m with ocd := ocdRun prog m.ocd, out := m.out ++ [.run prog] }

/-- The bus of the next routine that is waited for. -/
def bus (m : Machine) : Nat → OcdIn := m.pins m.waits

def busywait (m : Machine) : Option Machine :=
  (ocdBusywait m.bus m.ocd).map fun τ => { m with
    ocd := τ
    waits := m.waits + 1
    out := m.out ++ [.waited (ocdDriven m.bus m.ocd) (ocdCaptured m.bus m.ocd)] }

def setStatus (st : Status) (m : Machine) : Machine :=
  { m with
    sv := { m.sv with status := st }
    out := m.out ++ [.status st m.sv.ioaddr m.sv.iodata] }

/-- The call of `dev_read` in `sv_iobreak`. -/
def devRead (m : Machine) : Option Machine :=
  (Supervisor.devRead m.sv.dev m.sv.ioaddr).map fun v =>
    { m with sv := { m.sv with iodata := v }, out := m.out ++ [.dev m.sv.ioaddr] }

def devWrite (m : Machine) : Option Machine :=
  (Supervisor.devWrite m.sv.dev m.sv.ioaddr m.sv.iodata).map fun ds =>
    { m with sv := { m.sv with dev := ds }, out := m.out ++ [.dev m.sv.ioaddr] }

end Machine

/-! ## 3. supervisor.c -/

section Functions

variable (m : Machine)

def svInit : Option Machine := do
  let m := { m with sv := { m.sv with dev := devRegister [] devLed, ioaddr := 0, iodata := 0 } }
  let m ← (m.run ocdPrgmReset).busywait
  some (m.setStatus .stop)

def svStop : Option (Nat × Machine) := do
  let m ← (m.run ocdPrgmReset).busywait
  some (0, m.setStatus .stop)

/-- The part of `sv_brk` after its busy wait. -/
def svBroken : Machine :=
  let m := { m with sv := { m.sv with regs := { m.sv.regs with
    eflags := ocdGetReg32 2 m.ocd
    cs := ocdGetReg 4 m.ocd
    eip := ocdGetReg32 5 m.ocd } } }
  if ocdGetReg 1 m.ocd ≠ 0 then m.setStatus .brk32 else m.setStatus .brk16

def svBrk : Option (Nat × Machine) :=
  if m.sv.status = .running then do
    let m ← (m.run ocdPrgmBreak).busywait
    some (0, svBroken m)
  else some (1, m)

/-- The OCD_REGS `sv_cont` sets for `ocd_prgm_cont`. -/
def svContext : Arch :=
  ocdSetReg32 5 m.sv.regs.eip (ocdSetReg 4 m.sv.regs.cs (ocdSetReg32 2 m.sv.regs.eflags m.ocd))

def svCont : Nat × Machine :=
  match m.sv.status with
  | .brk32 => (0, ({ m with ocd := svContext m }.run ocdPrgmCont).setStatus .running)
  | .iord =>
    (0, ({ m with ocd := ocdSetReg 3 m.sv.iodata m.ocd }.run ocdPrgmWriteIo).setStatus .running)
  | .iowr => (0, (m.run ocdPrgmStart).setStatus .running)
  | _ => (1, m)

/-- A trapped OUT, its data in R3. -/
def svIowr : Nat × Machine :=
  let m := { m with sv := { m.sv with iodata := ocdGetReg 3 m.ocd } }
  let m := m.setStatus .iowr
  match m.devWrite with
  | some m => (0, (svCont m).2)
  | none => (0, m)

/-- A trapped IN. -/
def svIord : Nat × Machine :=
  let m := m.setStatus .iord
  match m.devRead with
  | some m => (0, (svCont m).2)
  | none => (0, m)

def svIobreak : Option (Nat × Machine) :=
  if m.sv.status = .running then do
    let iowr := ocdGetReg 2 m.ocd
    let m := { m with sv := { m.sv with ioaddr := ocdGetReg 1 m.ocd } }
    if iowr ≠ 0 then
      let m ← (m.run ocdPrgmReadIo).busywait
      some (svIowr m)
    else some (svIord m)
  else some (1, m)

def svStart : Nat × Machine :=
  if m.sv.status = .stop then (0, (m.run ocdPrgmStart).setStatus .running) else (1, m)

def espRun (x : BitVec 32) : BitVec 32 := x + 12

def espBrk (x : BitVec 32) : BitVec 32 := x - 12

/-- The registers `sv_get_regs` reads after `ocd_prgm_get_regs`. -/
def svRead : Machine :=
  { m with sv := { m.sv with regs := { m.sv.regs with
    edi := ocdGetReg32 0 m.ocd
    esi := ocdGetReg32 2 m.ocd
    ebp := ocdGetReg32 4 m.ocd
    esp := espRun (ocdGetReg32 6 m.ocd)
    ebx := ocdGetReg32 8 m.ocd
    edx := ocdGetReg32 10 m.ocd
    ecx := ocdGetReg32 12 m.ocd
    eax := ocdGetReg32 14 m.ocd } } }

/-- "Restore ESP": the registers of `ocd_prgm_set_reg`. -/
def svRestore : Machine :=
  { m with ocd := ocdSetReg32 2 (espBrk m.sv.regs.esp) (ocdSetReg 1 0xBC90 m.ocd) }

def svGetRegs : Option (Nat × Machine) :=
  if m.sv.status = .brk32 then do
    let m ← (m.run ocdPrgmGetRegs).busywait
    let m ← ((svRestore (svRead m)).run ocdPrgmSetReg).busywait
    some (0, m)
  else some (1, m)

end Functions

section Offered

variable {m : Machine}

/-- An OUT that none of the devices takes. -/
theorem svIowr_none (h : devWrite m.sv.dev m.sv.ioaddr (ocdGetReg 3 m.ocd) = none) :
    (svIowr m).2 =
      ({ m with sv := { m.sv with iodata := ocdGetReg 3 m.ocd } } : Machine).setStatus .iowr := by
  simp only [svIowr, Machine.devWrite, Machine.setStatus, h, Option.map_none]

/-- An OUT that a device takes. -/
theorem svIowr_some {ds : List Dev}
    (h : devWrite m.sv.dev m.sv.ioaddr (ocdGetReg 3 m.ocd) = some ds) :
    (svIowr m).2 = (svCont { m with
      sv := { m.sv with iodata := ocdGetReg 3 m.ocd, status := .iowr, dev := ds }
      out := m.out ++ [.status .iowr m.sv.ioaddr (ocdGetReg 3 m.ocd)] ++
        [.dev m.sv.ioaddr] }).2 := by
  simp only [svIowr, Machine.devWrite, Machine.setStatus, h, Option.map_some]

theorem svIord_none (h : devRead m.sv.dev m.sv.ioaddr = none) :
    (svIord m).2 = m.setStatus .iord := by
  simp only [svIord, Machine.devRead, Machine.setStatus, h, Option.map_none]

theorem svIord_some {v : Word} (h : devRead m.sv.dev m.sv.ioaddr = some v) :
    (svIord m).2 = (svCont { m with
      sv := { m.sv with status := .iord, iodata := v }
      out := m.out ++ [.status .iord m.sv.ioaddr m.sv.iodata] ++ [.dev m.sv.ioaddr] }).2 := by
  simp only [svIord, Machine.devRead, Machine.setStatus, h, Option.map_some]

end Offered

/-! ## 4. Waiting for a routine -/

namespace Machine

variable {m : Machine}

@[simp] theorem run_sv (prog : List Byte) (m : Machine) : (m.run prog).sv = m.sv := rfl
@[simp] theorem run_ocd (prog : List Byte) (m : Machine) :
    (m.run prog).ocd = ocdRun prog m.ocd := rfl
@[simp] theorem run_bus (prog : List Byte) (m : Machine) : (m.run prog).bus = m.bus := rfl
@[simp] theorem setStatus_ocd (st : Status) (m : Machine) : (m.setStatus st).ocd = m.ocd := rfl
@[simp] theorem setStatus_status (st : Status) (m : Machine) :
    (m.setStatus st).sv.status = st := rfl

/-- The machine after a routine it has waited for, the unit then being in `τ`. -/
def waited (m : Machine) (prog : List Byte) (τ : Arch) : Machine :=
  { m with
    ocd := τ
    waits := m.waits + 1
    out := m.out ++ [.run prog, .waited (ocdDriven m.bus (ocdRun prog m.ocd))
      (ocdCaptured m.bus (ocdRun prog m.ocd))] }

@[simp] theorem waited_sv (m : Machine) (prog : List Byte) (τ : Arch) :
    (m.waited prog τ).sv = m.sv := rfl
@[simp] theorem waited_ocd (m : Machine) (prog : List Byte) (τ : Arch) :
    (m.waited prog τ).ocd = τ := rfl

theorem run_busywait {prog : List Byte} {τ : Arch}
    (h : ocdBusywait m.bus (ocdRun prog m.ocd) = some τ) :
    (m.run prog).busywait = some (m.waited prog τ) := by
  have hbus : ocdBusywait (m.run prog).bus (m.run prog).ocd = some τ := h
  rw [busywait, hbus]
  simp [waited, run, bus]

end Machine

end LsePc.Supervisor
