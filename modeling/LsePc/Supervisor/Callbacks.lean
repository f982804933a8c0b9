/-
  File:      LsePc/Supervisor/Callbacks.lean
  Subject:   The commands of proto.c and their callbacks.

  A callback answers a command of the host by a call of supervisor.c and the bytes it
  acknowledges it with. The callbacks are written over any implementation of
  supervisor.c (`SvApi`); `machineApi` is the one of Supervisor.lean, which always
  returns because every routine comes to its EXIT.

  * `Cmd`, `callback`: the table `proto_cmds` and the functions `cb_*`;
  * `svInit_eq`, `svStop_eq`, `svBrk_eq`, `svGetRegs_eq`: what the waiting functions
    return with;
  * `machineApi`, `Machine.command`, `Machine.poll`: one turn of the main loop;
    `Machine.pollOn`: with the pins of this poll.
-/
import LsePc.Supervisor.Break

namespace LsePc.Supervisor

open LsePc.Bridge

/-! ## 1. The callbacks -/

/-- The commands CMD_GETVERSION to CMD_GETIOADDR, with their arguments. -/
inductive Cmd where
  | getVersion
  | echo (arg : Byte)
  | start
  | stop
  | brk
  | cont
  | getStatus
  | getRegs
  | setIoData (data : Word)
  | getIoData
  | getIoAddr
  deriving DecidableEq, Repr

/-- PROTO_VERSION with its NUL: "LSE-PC Supervisor v0.1". -/
def protoVersion : List Byte :=
  ['L', 'S', 'E', '-', 'P', 'C', ' ', 'S', 'u', 'p', 'e', 'r', 'v', 'i',
    's', 'o', 'r', ' ', 'v', '0', '.', '1'].map (fun c => BitVec.ofNat 8 c.toNat) ++ [0]

def le16 (w : Word) : List Byte := [w.setWidth 8, (w >>> 8).setWidth 8]

def le32 (w : BitVec 32) : List Byte := le16 (w.setWidth 16) ++ le16 ((w >>> 16).setWidth 16)

/-- The packed `struct sv_regs`. -/
def SvRegs.bytes (r : SvRegs) : List Byte :=
  [r.valid] ++ le32 r.eflags ++ le32 r.eip ++ le32 r.eax ++ le32 r.ecx ++ le32 r.edx ++
    le32 r.ebx ++ le32 r.esp ++ le32 r.ebp ++ le32 r.esi ++ le32 r.edi ++ le16 r.cs

/-- An implementation of supervisor.c on states `σ` that hold a `struct sv`. -/
structure SvApi (σ : Type) where
  sv : σ → Sv
  setSv : Sv → σ → σ
  sv_setSv : ∀ v x, sv (setSv v x) = v
  stop : σ → Nat × σ
  start : σ → Nat × σ
  brk : σ → Nat × σ
  cont : σ → Nat × σ
  getRegs : σ → Nat × σ

namespace SvApi

variable {σ : Type} (api : SvApi σ)

/-- `uint8_t ret = sv_...(sv); proto_ack(&ret, 1);` -/
def ret (r : Nat × σ) : List Byte × σ := ([BitVec.ofNat 8 r.1], r.2)

def cbGetRegs (x : σ) : List Byte × σ :=
  let r := api.getRegs x
  let v := { (api.sv r.2).regs with valid := BitVec.ofNat 8 r.1 }
  (v.bytes, api.setSv { api.sv r.2 with regs := v } r.2)

def cbSetIoData (data : Word) (x : σ) : List Byte × σ :=
  (le16 data, api.setSv { api.sv x with iodata := data } x)

/-- The bytes of the acknowledgement and the state after the callback of a command. -/
def callback : Cmd → σ → List Byte × σ
  | .getVersion, x => (protoVersion, x)
  | .echo arg, x => ([arg], x)
  | .start, x => ret (api.start x)
  | .stop, x => ret (api.stop x)
  | .brk, x => ret (api.brk x)
  | .cont, x => ret (api.cont x)
  | .getStatus, x => ([(api.sv x).status.code], x)
  | .getRegs, x => api.cbGetRegs x
  | .setIoData data, x => api.cbSetIoData data x
  | .getIoData, x => (le16 (api.sv x).iodata, x)
  | .getIoAddr, x => (le16 (api.sv x).ioaddr, x)

end SvApi

/-! ## 2. The waiting functions return -/

section Returns

variable (m : Machine)

theorem svStop_eq : ∃ τ, ocdIsrunning τ = false ∧
    svStop m = some (0, (m.waited ocdPrgmReset τ).setStatus .stop) := by
  obtain ⟨τ, h⟩ := reset_exits m.ocd m.bus
  exact ⟨τ, ocdBusywait_stops h, by rw [svStop, Machine.run_busywait h]; rfl⟩

/-- `sv_init` leaves the CPU stopped, with the LED as the only device. -/
theorem svInit_eq : ∃ τ, ocdIsrunning τ = false ∧
    svInit m = some ((Machine.waited { m with sv :=
      { m.sv with dev := devRegister [] devLed, ioaddr := 0, iodata := 0 } }
        ocdPrgmReset τ).setStatus .stop) := by
  let m' : Machine := { m with sv :=
    { m.sv with dev := devRegister [] devLed, ioaddr := 0, iodata := 0 } }
  obtain ⟨τ, h⟩ := reset_exits m'.ocd m'.bus
  refine ⟨τ, ocdBusywait_stops h, ?_⟩
  show ((m'.run ocdPrgmReset).busywait).bind _ = _
  rw [Machine.run_busywait h]
  rfl

/-- A break of a running CPU. -/
theorem svBrk_eq (hs : m.sv.status = .running) :
    ∃ τ, Broken m.bus (ocdRun ocdPrgmBreak m.ocd) τ ∧
      svBrk m = some (0, svBroken (m.waited ocdPrgmBreak τ)) := by
  obtain ⟨-, -, -, τ, h⟩ := break_exits m.ocd m.bus
  exact ⟨τ, h, by rw [svBrk, if_pos hs, Machine.run_busywait h.exits]; rfl⟩

theorem svBrk_isSome : (svBrk m).isSome := by
  by_cases hs : m.sv.status = .running
  · obtain ⟨τ, -, h⟩ := svBrk_eq m hs
    rw [h]
    rfl
  · rw [svBrk, if_neg hs]
    rfl

/-- The two routines of `sv_get_regs`; `w` are the words of the first. -/
theorem svGetRegs_eq (hs : m.sv.status = .brk32) :
    ∃ τ τ', ∃ w : Nat → Word,
      ocdCaptured m.bus (ocdRun ocdPrgmGetRegs m.ocd) = (List.range 16).map w ∧
      (∀ r : BitVec 4, τ.reg r = w r.toNat) ∧ ocdIsrunning τ' = false ∧
      svGetRegs m = some (0, (svRestore (svRead (m.waited ocdPrgmGetRegs τ))).waited
        ocdPrgmSetReg τ') := by
  obtain ⟨τ, w, h, hcap, hreg⟩ := getRegs_exits m.ocd m.bus
  obtain ⟨τ', h', -⟩ := setReg_exits (svRestore (svRead (m.waited ocdPrgmGetRegs τ))).ocd
    (svRestore (svRead (m.waited ocdPrgmGetRegs τ))).bus
  refine ⟨τ, τ', w, hcap, hreg, ocdBusywait_stops h', ?_⟩
  rw [svGetRegs, if_pos hs, Machine.run_busywait h]
  simp only [Option.bind_eq_bind, Option.bind_some, Machine.run_busywait h']

theorem svGetRegs_isSome : (svGetRegs m).isSome := by
  by_cases hs : m.sv.status = .brk32
  · obtain ⟨τ, τ', w, -, -, -, h⟩ := svGetRegs_eq m hs
    rw [h]
    rfl
  · rw [svGetRegs, if_neg hs]
    rfl

/-- The machine with the port of a trapped access. -/
def Machine.trapped : Machine :=
  { m with sv := { m.sv with ioaddr := ocdGetReg 1 m.ocd } }

/-- A trapped OUT: its data are the word on the bus. -/
theorem svIobreak_out (hs : m.sv.status = .running) (hwr : ocdGetReg 2 m.ocd ≠ 0) :
    ∃ τ, τ.reg 3 = (m.bus 0).din ∧ ocdIsrunning τ = false ∧
      svIobreak m = some (svIowr (m.trapped.waited ocdPrgmReadIo τ)) := by
  obtain ⟨τ, h, h3⟩ := readIo_exits m.ocd m.bus
  have hrun : (m.trapped.run ocdPrgmReadIo).busywait =
      some (m.trapped.waited ocdPrgmReadIo τ) := Machine.run_busywait h
  refine ⟨τ, h3, ocdBusywait_stops h, ?_⟩
  rw [svIobreak, if_pos hs]
  simp only [if_pos hwr]
  show (m.trapped.run ocdPrgmReadIo).busywait.bind _ = _
  rw [hrun]
  rfl

theorem svIobreak_in (hs : m.sv.status = .running) (hrd : ocdGetReg 2 m.ocd = 0) :
    svIobreak m = some (svIord m.trapped) := by
  rw [svIobreak, if_pos hs]
  simp only [hrd, ne_eq, not_true_eq_false, if_false]
  rfl

theorem svIobreak_other (hs : m.sv.status ≠ .running) : svIobreak m = some (1, m) := by
  rw [svIobreak, if_neg hs]

theorem svIobreak_isSome : (svIobreak m).isSome := by
  by_cases hs : m.sv.status = .running
  · by_cases hwr : ocdGetReg 2 m.ocd = 0
    · rw [svIobreak_in m hs hwr]
      rfl
    · obtain ⟨τ, -, -, h⟩ := svIobreak_out m hs hwr
      rw [h]
      rfl
  · rw [svIobreak_other m hs]
    rfl

theorem svStop_isSome : (svStop m).isSome := by
  obtain ⟨τ, -, h⟩ := svStop_eq m
  rw [h]
  rfl

end Returns

/-! ## 3. The main loop -/

/-- supervisor.c itself. -/
def machineApi : SvApi Machine where
  sv := Machine.sv
  setSv v m := { m with sv := v }
  sv_setSv _ _ := rfl
  stop m := (svStop m).get (svStop_isSome m)
  start := svStart
  brk m := (svBrk m).get (svBrk_isSome m)
  cont := svCont
  getRegs m := (svGetRegs m).get (svGetRegs_isSome m)

namespace Machine

/-- A host command handled by `proto_handle`. -/
def command (c : Cmd) (m : Machine) : List Byte × Machine := machineApi.callback c m

/-- The end of a turn of the main loop. -/
def poll (m : Machine) : Machine :=
  if ocdIsrunning m.ocd then m else ((svIobreak m).get (svIobreak_isSome m)).2

/-- The next routine that is waited for finds this bus. -/
def onBus (bus : Nat → OcdIn) (m : Machine) : Machine := { m with pins := fun _ => bus }

/-- A poll that finds this bus. -/
def pollOn (bus : Nat → OcdIn) (m : Machine) : Machine :=
  { (m.onBus bus).poll with pins := m.pins }

end Machine

end LsePc.Supervisor
