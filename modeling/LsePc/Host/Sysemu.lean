/-
  File:      LsePc/Host/Sysemu.lean
  Subject:   cmd_sysemu: the host serves the accesses of the CPU.

  The monitor polls the status, and for a recorded access asks for its port (and data), calls
  the device, hands the word back and continues the CPU. Its calls go over the link to a
  supervisor whose CPU traps and whose main loop polls at any time.

  * `Pc`, `Sysemu`, `sysemu`: the program, from call to call;
  * `Serviced`: what an access does to the handlers of the devices and to the CPU;
  * `Stage`, `Emulated`: where the program stands with the access under way;
    `emulated_step`: every step keeps it;
  * `Transparent`, `sysemu_transparent`: runs over the link.
-/
import LsePc.Host.Dev
import LsePc.Host.Remote
import LsePc.Supervisor.Guest
import Mathlib.Data.List.Forall2

namespace LsePc.Host

open LsePc.Lib LsePc.Bridge LsePc.Supervisor

/-! ## 1. The program -/

/-- The calls `cmd_sysemu` waits for: info, stop and start, the poll of the loop, and those of
    an IN and of an OUT. -/
inductive Pc where
  | info
  | stop
  | start
  | poll
  | iordAddr
  | iordData (iodata : Word)
  | iordCont
  | iowrAddr
  | iowrData (ioaddr : Word)
  | iowrCont
  | exit (ret : Int)
  deriving DecidableEq, Repr

/-- `handled` are the handler calls so far. -/
structure Sysemu where
  pc : Pc
  dev : List Dev
  handled : List Handled

/-- The size of the buffer of `cmd_info`. -/
def versionSize : Nat := 32

def Pc.ask : Pc → Option Call
  | .info => some (.getVersion versionSize (by decide))
  | .stop => some .stop
  | .start => some .start
  | .poll => some .getStatus
  | .iordAddr => some .getIoAddr
  | .iordData iodata => some (.setIoData iodata)
  | .iordCont => some .cont
  | .iowrAddr => some .getIoAddr
  | .iowrData _ => some .getIoData
  | .iowrCont => some .cont
  | .exit _ => none

/-- The `int` of a call. -/
def Reply.int : Reply → Int
  | .ret n => n
  | .version n _ => n
  | .regs n _ => n

/-- The program goes on from a reply; `fd` is what a file descriptor delivers to a handler. -/
def Sysemu.resume (h : Sysemu) (r : Reply) (fd : List Byte) : Sysemu :=
  match h.pc with
  | .info => { h with pc := .stop }
  | .stop => { h with pc := .start }
  | .start => { h with pc := .poll }
  | .poll =>
    -- the status decides: LSEPC_ST_STOP, LSEPC_ST_RUN, LSEPC_ST_IOWR, LSEPC_ST_IORD
    if r.int = 0 then { h with pc := .exit 0 }
    else if r.int = 1 then { h with pc := .poll }
    else if r.int = 5 then { h with pc := .iordAddr }
    else if r.int = 4 then { h with pc := .iowrAddr }
    else { h with pc := .exit (-ebadmsg) }
  | .iordAddr =>
    let read := devRead h.dev (BitVec.ofInt 16 r.int) fd
    { pc := .iordData read.1, dev := read.2.1, handled := h.handled ++ read.2.2 }
  | .iordData _ => { h with pc := .iordCont }
  | .iordCont => { h with pc := .poll }
  | .iowrAddr => { h with pc := .iowrData (BitVec.ofInt 16 r.int) }
  | .iowrData ioaddr =>
    let written := devWrite h.dev ioaddr (BitVec.ofInt 16 r.int)
    { pc := .iowrCont, dev := written.1, handled := h.handled ++ written.2 }
  | .iowrCont => { h with pc := .poll }
  | .exit _ => h

def sysemu : Caller Sysemu Call Reply where
  ask h := h.pc.ask
  tell h r h' := ∃ fd, h' = h.resume r fd

/-- `cmd_sysemu` with its devices registered. -/
def Sysemu.init (data1 data2 : SerialData) : Sysemu where
  pc := .info
  dev := devRegister (devRegister [] (com1Dev data1)) (com2Dev data2)
  handled := []

/-! ## 2. Where the program stands -/

/-- **What an access is to do**: nothing to the handlers if it is the LED's, and one call of
    the device that has its port; an IN gets the word of that call, or 0. -/
def Serviced (ds : List Dev) (x : Access × Option Word) (calls : List Handled) : Prop :=
  if x.1.port = ledPort then calls = []
  else if x.1.wr then ServedOut (window ds x.1.port) x.1.port x.1.data calls
  else ∃ w, x.2 = some w ∧ ServedIn (window ds x.1.port) x.1.port w calls

section Stages

variable (ds : List Dev) (g : Guest) (cur : List Handled)

/-- Before a call, and until it is served; `cur` are the handler calls for the access under
    way. -/
def Waits : Pc → Prop
  | .info | .stop | .start => At g .stopped ∧ cur = []
  | .poll => Live g ∧ cur = []
  | .iordAddr => ∃ a, At g (.held a) ∧ a.wr = false ∧ cur = []
  | .iordData v => ∃ a, At g (.held a) ∧ a.wr = false ∧
      ServedIn (window ds a.port) a.port v cur
  | .iordCont => ∃ a, At g (.held a) ∧ a.wr = false ∧
      ServedIn (window ds a.port) a.port g.m.sv.iodata cur
  | .iowrAddr => ∃ a, At g (.held a) ∧ a.wr = true ∧ cur = []
  | .iowrData p => ∃ a, At g (.held a) ∧ a.wr = true ∧ p = a.port ∧ cur = []
  | .iowrCont => ∃ a, At g (.held a) ∧ a.wr = true ∧
      ServedOut (window ds a.port) a.port a.data cur
  | .exit _ => False

/-- Once the call is served, until the program goes on from the reply `r`. -/
def Answered (r : Reply) : Pc → Prop
  | .info | .stop => At g .stopped ∧ cur = []
  | .start | .iordCont | .iowrCont => Live g ∧ cur = []
  | .poll => cur = [] ∧ ((r = .ret 1 ∧ Live g) ∨
      ∃ a, At g (.held a) ∧ r = .ret (if a.wr then 4 else 5))
  | .iordAddr => ∃ a, At g (.held a) ∧ a.wr = false ∧ r = .ret a.port.toNat ∧ cur = []
  | .iordData v => ∃ a, At g (.held a) ∧ a.wr = false ∧ g.m.sv.iodata = v ∧
      ServedIn (window ds a.port) a.port v cur
  | .iowrAddr => ∃ a, At g (.held a) ∧ a.wr = true ∧ r = .ret a.port.toNat ∧ cur = []
  | .iowrData p => ∃ a, At g (.held a) ∧ a.wr = true ∧ p = a.port ∧
      r = .ret a.data.toNat ∧ cur = []
  | .exit _ => False

def Stage (pc : Pc) : Slot Call Reply → Prop
  | .idle => Waits ds g cur pc
  | .posted c => pc.ask = some c ∧ Waits ds g cur pc
  | .answered r => Answered ds g cur r pc

end Stages

/-- The finished accesses are serviced, in order, by consecutive handler calls, and what is
    left of the calls belongs to the access under way. -/
structure Emulated (ds : List Dev) (a : Rpc Sysemu (Guest × List Cmd) Call Reply) : Prop where
  windows : window a.host.dev = window ds
  sane : Sane a.x.1
  stage : ∃ groups cur, List.Forall₂ (Serviced ds) a.x.1.finished groups ∧
    a.host.handled = groups.flatten ++ cur ∧ Stage ds a.x.1 cur a.host.pc a.slot

/-! ## 3. The steps -/

/-- The replies of the supervisor with the account of the CPU's accesses. -/
theorem guestApi_small : Small guestApi where
  start g := machineApi_small.start g.m
  stop g := machineApi_small.stop g.m
  brk g := machineApi_small.brk g.m
  cont g := machineApi_small.cont g.m
  getRegs g := machineApi_small.getRegs g.m

section Steps

variable {init : List Byte} {ds : List Dev} {g g' : Guest} {cur : List Handled} {pc : Pc}

theorem held_status {a : Access} (h : At g (.held a)) :
    Reply.ret g.m.sv.status.code.toNat = .ret (if a.wr then 4 else 5) := by
  cases h with
  | held hst =>
    rw [hst]
    cases a.wr <;> rfl

/-- What the poll is answered. -/
theorem live_status (h : Live g) :
    (Reply.ret g.m.sv.status.code.toNat = .ret 1 ∧ Live g) ∨
      ∃ a, At g (.held a) ∧ Reply.ret g.m.sv.status.code.toNat = .ret (if a.wr then 4 else 5) := by
  obtain ⟨ph, hat, hph⟩ := h
  cases hat with
  | stopped => exact absurd rfl hph
  | running hst hocd hpend => exact .inl ⟨by rw [hst]; rfl, _, .running hst hocd hpend, hph⟩
  | trapped hst hocd hport hwr hpend =>
    exact .inl ⟨by rw [hst]; rfl, _, .trapped hst hocd hport hwr hpend, hph⟩
  | @held a hst hocd hport hdata hled hpend =>
    have hat : At g (.held a) := .held hst hocd hport hdata hled hpend
    exact .inr ⟨a, hat, held_status hat⟩

/-- **The supervisor serves a call**: only a cont finishes an access. -/
theorem stage_serve {c : Call} (hs : Sane g) (hask : pc.ask = some c) (h : Waits ds g cur pc) :
    Sane (direct guestApi c g).2 ∧
      ((Answered ds (direct guestApi c g).2 cur (direct guestApi c g).1 pc ∧
          (direct guestApi c g).2.finished = g.finished) ∨
        (Answered ds (direct guestApi c g).2 [] (direct guestApi c g).1 pc ∧
          ∃ x, Serviced ds x cur ∧ (direct guestApi c g).2.finished = g.finished ++ [x])) := by
  cases pc with
  | info =>
    obtain rfl := Option.some.inj hask
    exact ⟨hs, .inl ⟨h, rfl⟩⟩
  | stop =>
    obtain rfl := Option.some.inj hask
    obtain ⟨hsane, hat, hfin⟩ := at_stop hs h.1
    exact ⟨hsane, .inl ⟨⟨hat, h.2⟩, hfin⟩⟩
  | start =>
    obtain rfl := Option.some.inj hask
    obtain ⟨hsane, hat, hfin⟩ := at_start hs h.1
    exact ⟨hsane, .inl ⟨⟨⟨_, hat, by simp⟩, h.2⟩, hfin⟩⟩
  | poll =>
    obtain rfl := Option.some.inj hask
    exact ⟨hs, .inl ⟨⟨h.2, live_status h.1⟩, rfl⟩⟩
  | iordAddr =>
    obtain rfl := Option.some.inj hask
    obtain ⟨a, hat, ha, hcur⟩ := h
    obtain ⟨hport, -, -, -⟩ := hat.recorded
    exact ⟨hs, .inl ⟨⟨a, hat, ha, congrArg (fun w : Word => Reply.ret w.toNat) hport, hcur⟩, rfl⟩⟩
  | iordData v =>
    obtain rfl := Option.some.inj hask
    obtain ⟨a, hat, ha, hin⟩ := h
    obtain ⟨hsane, hat'⟩ := at_setIoData hs hat ha v
    exact ⟨hsane, .inl ⟨⟨a, hat', ha, rfl, hin⟩, rfl⟩⟩
  | iordCont =>
    obtain rfl := Option.some.inj hask
    obtain ⟨a, hat, ha, hin⟩ := h
    obtain ⟨-, -, hled, -⟩ := hat.recorded
    obtain ⟨hsane, hrun, w, hw, hfin⟩ := at_cont hs hat
    refine ⟨hsane, .inr ⟨⟨⟨_, hrun, by simp⟩, rfl⟩, (a, w), ?_, hfin⟩⟩
    rw [Serviced, if_neg hled, if_neg (by simp [ha])]
    exact ⟨_, hw ha, hin⟩
  | iowrAddr =>
    obtain rfl := Option.some.inj hask
    obtain ⟨a, hat, ha, hcur⟩ := h
    obtain ⟨hport, -, -, -⟩ := hat.recorded
    exact ⟨hs, .inl ⟨⟨a, hat, ha, congrArg (fun w : Word => Reply.ret w.toNat) hport, hcur⟩, rfl⟩⟩
  | iowrData p =>
    obtain rfl := Option.some.inj hask
    obtain ⟨a, hat, ha, hp, hcur⟩ := h
    obtain ⟨-, hdata, -, -⟩ := hat.recorded
    exact ⟨hs, .inl ⟨⟨a, hat, ha, hp,
      congrArg (fun w : Word => Reply.ret w.toNat) (hdata ha), hcur⟩, rfl⟩⟩
  | iowrCont =>
    obtain rfl := Option.some.inj hask
    obtain ⟨a, hat, ha, hout⟩ := h
    obtain ⟨-, -, hled, -⟩ := hat.recorded
    obtain ⟨hsane, hrun, w, -, hfin⟩ := at_cont hs hat
    refine ⟨hsane, .inr ⟨⟨⟨_, hrun, by simp⟩, rfl⟩, (a, w), ?_, hfin⟩⟩
    rw [Serviced, if_neg hled, if_pos ha]
    exact hout
  | exit => exact absurd h id

theorem ofInt_toNat (w : Word) : BitVec.ofInt 16 (w.toNat : Int) = w := by
  simp

/-- **The program goes on from a reply**: the device is called where the port (and the data)
    have come. -/
theorem stage_resume {h : Sysemu} {r : Reply} (hwin : window h.dev = window ds)
    (hr : Answered ds g cur r h.pc) (fd : List Byte) :
    window (h.resume r fd).dev = window ds ∧ ∃ calls, (h.resume r fd).handled = h.handled ++ calls ∧
      Waits ds g (cur ++ calls) (h.resume r fd).pc := by
  obtain ⟨pc, dev, handled⟩ := h
  have hsame : ∀ {pc'}, Waits ds g cur pc' → ∃ calls : List Handled, handled = handled ++ calls ∧
      Waits ds g (cur ++ calls) pc' := by
    intro pc' h
    exact ⟨[], (List.append_nil _).symm, by rwa [List.append_nil]⟩
  cases pc with
  | info | stop | start | iordCont | iowrCont => exact ⟨hwin, hsame hr⟩
  | poll =>
    obtain ⟨rfl, ⟨rfl, hlive⟩ | ⟨a, hat, rfl⟩⟩ := hr
    · exact ⟨hwin, hsame ⟨hlive, rfl⟩⟩
    · cases ha : a.wr with
      | true => exact ⟨hwin, hsame ⟨a, hat, ha, rfl⟩⟩
      | false => exact ⟨hwin, hsame ⟨a, hat, ha, rfl⟩⟩
  | iordAddr =>
    obtain ⟨a, hat, ha, rfl, rfl⟩ := hr
    obtain ⟨hserved, hdev⟩ := devRead_spec dev a.port fd
    rw [hwin] at hserved hdev
    simp only [Sysemu.resume, Reply.int, ofInt_toNat]
    exact ⟨hdev, _, rfl, a, hat, ha, hserved⟩
  | iordData v =>
    obtain ⟨a, hat, ha, rfl, hin⟩ := hr
    exact ⟨hwin, hsame ⟨a, hat, ha, hin⟩⟩
  | iowrAddr =>
    obtain ⟨a, hat, ha, rfl, rfl⟩ := hr
    exact ⟨hwin, hsame ⟨a, hat, ha, ofInt_toNat _, rfl⟩⟩
  | iowrData p =>
    obtain ⟨a, hat, ha, rfl, rfl, rfl⟩ := hr
    obtain ⟨hserved, hdev⟩ := devWrite_spec dev a.port a.data
    rw [hwin] at hserved hdev
    simp only [Sysemu.resume, Reply.int, ofInt_toNat]
    exact ⟨hdev, _, rfl, a, hat, ha, hserved⟩
  | exit => exact absurd hr id

/-- The CPU waits for the program, or the program takes the CPU as it finds it. -/
theorem stage_cases {slot : Slot Call Reply} (h : Stage ds g cur pc slot) :
    (∃ ph, At g ph ∧ (ph = .stopped ∨ ∃ a, ph = .held a)) ∨
      (Live g ∧ ∀ g', Live g' → Stage ds g' cur pc slot) := by
  have hheld : ∀ {a}, At g (.held a) → ∃ ph, At g ph ∧ (ph = .stopped ∨ ∃ a, ph = .held a) :=
    fun hat => ⟨_, hat, .inr ⟨_, rfl⟩⟩
  have hwaits : Waits ds g cur pc → (∃ ph, At g ph ∧ (ph = .stopped ∨ ∃ a, ph = .held a)) ∨
      (Live g ∧ ∀ g', Live g' → Waits ds g' cur pc) := by
    intro h
    cases pc with
    | info | stop | start => exact .inl ⟨_, h.1, .inl rfl⟩
    | poll => exact .inr ⟨h.1, fun g' hl => ⟨hl, h.2⟩⟩
    | iordAddr | iordData | iordCont | iowrAddr | iowrData | iowrCont =>
      obtain ⟨a, hat, -⟩ := h
      exact .inl (hheld hat)
    | exit => exact absurd h id
  cases slot with
  | idle => exact hwaits h
  | posted c => exact (hwaits h.2).imp_right fun ⟨hl, hg⟩ => ⟨hl, fun g' hl' => ⟨h.1, hg g' hl'⟩⟩
  | answered r =>
    cases pc with
    | info | stop => exact .inl ⟨_, h.1, .inl rfl⟩
    | start | iordCont | iowrCont => exact .inr ⟨h.1, fun g' hl => ⟨hl, h.2⟩⟩
    | poll =>
      obtain ⟨hcur, ⟨hr, hl⟩ | ⟨a, hat, -⟩⟩ := h
      · exact .inr ⟨hl, fun g' hl' => ⟨hcur, .inl ⟨hr, hl'⟩⟩⟩
      · exact .inl (hheld hat)
    | iordAddr | iordData | iowrAddr | iowrData =>
      obtain ⟨a, hat, -⟩ := h
      exact .inl (hheld hat)
    | exit => exact absurd h id

/-- **The supervisor and the CPU take a step**: what they finish alone is the LED's. -/
theorem stage_busy {slot : Slot Call Reply} (hs : Sane g) (h : Stage ds g cur pc slot)
    (hb : Busy g g') : Sane g' ∧ Stage ds g' cur pc slot ∧ (g'.finished = g.finished ∨
      ∃ a w, a.port = ledPort ∧ g'.finished = g.finished ++ [(a, w)]) := by
  rcases stage_cases h with ⟨ph, hat, hph⟩ | ⟨hl, hg⟩
  · obtain rfl := busy_waits hat hph hb
    exact ⟨hs, h, .inl rfl⟩
  · obtain ⟨hsane, hl', hfin⟩ := busy_live hs hl hb
    exact ⟨hsane, hg g' hl', hfin⟩

/-- **One step of the program, the supervisor or the CPU.** -/
theorem emulated_step {a b : Rpc Sysemu (Guest × List Cmd) Call Reply} {i : Rpc.Action}
    (h : Emulated ds a)
    (hs : Rpc.Step sysemu ((protocol guestApi init).serve Call.cmd Call.decode) (Quietly Busy)
      a i b) :
    Emulated ds b := by
  obtain ⟨hwin, hsane, groups, cur, hgroups, hhandled, hstage⟩ := h
  cases hs with
  | post hask => exact ⟨hwin, hsane, groups, cur, hgroups, hhandled, hask, hstage⟩
  | @serve _ x c =>
    obtain ⟨hask, hwaits⟩ := hstage
    obtain ⟨g, log⟩ := x
    rw [serve_eq_direct guestApi guestApi_small]
    obtain ⟨hsane', ⟨hans, hfin⟩ | ⟨hans, y, hy, hfin⟩⟩ := stage_serve hsane hask hwaits
    · exact ⟨hwin, hsane', groups, cur, by rw [hfin]; exact hgroups, hhandled, hans⟩
    · refine ⟨hwin, hsane', groups ++ [cur], [], ?_, ?_, hans⟩
      · rw [hfin]
        exact List.rel_append hgroups (.cons hy .nil)
      · rw [List.flatten_append, List.flatten_singleton, List.append_nil]
        exact hhandled
  | resume htell =>
    obtain ⟨fd, rfl⟩ := htell
    obtain ⟨hwin', calls, hh, hwaits⟩ := stage_resume hwin hstage fd
    refine ⟨hwin', hsane, groups, cur ++ calls, hgroups, ?_, hwaits⟩
    rw [← List.append_assoc, ← hhandled]
    exact hh
  | background hbg =>
    obtain ⟨hxy⟩ := hbg
    obtain ⟨hsane', hstage', hfin | ⟨a, w, hp, hfin⟩⟩ := stage_busy hsane hstage hxy
    · exact ⟨hwin, hsane', groups, cur, by rw [hfin]; exact hgroups, hhandled, hstage'⟩
    · refine ⟨hwin, hsane', groups ++ [[]], cur, ?_, ?_, hstage'⟩
      · rw [hfin]
        have hled : Serviced ds (a, w) [] := by rw [Serviced, if_pos hp]
        exact List.rel_append hgroups (.cons hled .nil)
      · rw [List.flatten_append, List.flatten_singleton, List.append_nil]
        exact hhandled

theorem emulated_init {data1 data2 : SerialData} {log : List Cmd} (hg : g.Init) :
    Emulated (Sysemu.init data1 data2).dev ⟨Sysemu.init data1 data2, .idle, g, log⟩ := by
  obtain ⟨hsane, hat⟩ := guest_init hg
  obtain ⟨m₀, -, -, -, hfin⟩ := hg
  refine ⟨rfl, hsane, [], [], ?_, rfl, hat, rfl⟩
  show List.Forall₂ _ g.finished []
  rw [hfin]
  exact .nil

end Steps

/-! ## 4. Runs over the link -/

section Runs

variable {init : List Byte} {ds : List Dev} {g : Guest} {cur : List Handled} {pc : Pc}

theorem stage_at {slot : Slot Call Reply} (h : Stage ds g cur pc slot) : ∃ ph, At g ph := by
  rcases stage_cases h with ⟨ph, hat, -⟩ | ⟨⟨ph, hat, -⟩, -⟩ <;> exact ⟨ph, hat⟩

theorem waits_asks (h : Waits ds g cur pc) : pc.ask ≠ none := by
  cases pc with
  | exit => exact absurd h id
  | _ => simp [Pc.ask]

theorem sysemu_tells (h : Sysemu) (c : Call) (r : Reply) (_ : sysemu.ask h = some c) :
    ∃ h', sysemu.tell h r h' := ⟨_, [], rfl⟩

/-- The host and the supervisor never wait for each other, and the host never gives up. -/
theorem emulated_goesOn {s : Link Sysemu (Guest × List Cmd) Byte Int Cmd (List Byte) Reply}
    {n : Nat} {a : Rpc Sysemu (Guest × List Cmd) Call Reply} (h : Emulated ds a)
    (hc : Coupled sysemu (protocol guestApi init) Call.cmd Call.decode n s a) :
    ∃ i t, i ≠ .background ∧ Link.Step sysemu (protocol guestApi init) (Quietly Busy) s i t := by
  refine (hc.ready sysemu_tells).resolve_left ?_
  intro h
  obtain ⟨hq, hask⟩ := h
  obtain ⟨-, -, groups, cur, -, -, hstage⟩ := h
  obtain ⟨-, rfl⟩ := hc.quiet_of_none hq.cur
  exact absurd hask (waits_asks hstage)

/-! ### An access is finished -/

/-- The calls that are yet to begin until the CPU goes on, when the program waits at `pc`: until
    the end of the start, or of a held access. -/
def Pc.left : Pc → Nat
  | .info => 7
  | .stop => 6
  | .start => 5
  | .iordAddr | .iowrAddr => 3
  | .iordData _ | .iowrData _ => 2
  | .iordCont | .iowrCont => 1
  | _ => 4

def left (pc : Pc) : Slot Call Reply → Nat
  | .idle => pc.left
  | .posted _ => pc.left - 1
  | .answered r => match pc with
    | .info => 6
    | .stop => 5
    | .poll => if r = .ret 1 then 4 else 3
    | .iordAddr | .iowrAddr => 2
    | .iordData _ | .iowrData _ => 1
    | _ => 4

theorem held_unique {a a' : Access} (h : At g (.held a)) (h' : At g (.held a')) : a' = a := by
  obtain ⟨-, -, -, hpend⟩ := h.recorded
  obtain ⟨-, -, -, hpend'⟩ := h'.recorded
  exact Option.some.inj (hpend'.symm.trans hpend)

theorem not_stopped {ph : Phase} (h : At g ph) (hph : ph ≠ .stopped) : ¬ At g .stopped := by
  intro h'
  cases h' with
  | stopped hst hocd hnone =>
    cases h with
    | stopped => exact hph rfl
    | running hst' | trapped hst' => simp [hst] at hst'
    | held _ _ _ _ _ hpend => simp [hnone] at hpend

/-- The CPU has gone on: a held access is finished, and no other. -/
def WentOn (ph : Phase) (fin fin' : List (Access × Option Word)) : Prop :=
  match ph with
  | .held a => ∃ w, fin' = fin ++ [(a, w)]
  | _ => fin' = fin

/-- The call that is served while an access is held finishes it or takes the program further. -/
theorem held_serve {a : Access} {c : Call} (hs : Sane g) (hat : At g (.held a))
    (hask : pc.ask = some c) (h : Waits ds g cur pc) :
    (At (direct guestApi c g).2 .running ∧
        ∃ w, (direct guestApi c g).2.finished = g.finished ++ [(a, w)]) ∨
      (At (direct guestApi c g).2 (.held a) ∧ (direct guestApi c g).2.finished = g.finished ∧
        left pc (.answered (direct guestApi c g).1) ≤ left pc (.posted c)) := by
  cases pc with
  | info | stop | start => exact absurd h.1 (not_stopped hat (by simp))
  | poll =>
    obtain rfl := Option.some.inj hask
    refine .inr ⟨hat, rfl, ?_⟩
    show (if Reply.ret g.m.sv.status.code.toNat = .ret 1 then 4 else 3) ≤ 3
    rw [held_status hat]
    cases a.wr <;> decide
  | iordAddr | iowrAddr | iowrData =>
    obtain rfl := Option.some.inj hask
    exact .inr ⟨hat, rfl, Nat.le_refl _⟩
  | iordData v =>
    obtain rfl := Option.some.inj hask
    obtain ⟨a', hat', ha', -⟩ := h
    obtain rfl := held_unique hat hat'
    exact .inr ⟨(at_setIoData hs hat ha' v).2, rfl, Nat.le_refl _⟩
  | iordCont | iowrCont =>
    obtain rfl := Option.some.inj hask
    obtain ⟨-, hrun, w, -, hfin⟩ := at_cont hs hat
    exact .inl ⟨hrun, w, hfin⟩
  | exit => exact absurd h id

/-- The call that is served while the CPU is stopped starts it or takes the program further. -/
theorem stopped_serve {c : Call} (hs : Sane g) (hat : At g .stopped) (hask : pc.ask = some c)
    (h : Waits ds g cur pc) :
    (At (direct guestApi c g).2 .running ∧ (direct guestApi c g).2.finished = g.finished) ∨
      (At (direct guestApi c g).2 .stopped ∧ (direct guestApi c g).2.finished = g.finished ∧
        left pc (.answered (direct guestApi c g).1) ≤ left pc (.posted c)) := by
  cases pc with
  | info =>
    obtain rfl := Option.some.inj hask
    exact .inr ⟨hat, rfl, Nat.le_refl _⟩
  | stop =>
    obtain rfl := Option.some.inj hask
    obtain ⟨-, hat', hfin⟩ := at_stop hs hat
    exact .inr ⟨hat', hfin, Nat.le_refl _⟩
  | start =>
    obtain rfl := Option.some.inj hask
    obtain ⟨-, hat', hfin⟩ := at_start hs hat
    exact .inl ⟨hat', hfin⟩
  | poll =>
    obtain ⟨ph, hat', hph⟩ := h.1
    exact absurd hat (not_stopped hat' hph)
  | iordAddr | iordData | iordCont | iowrAddr | iowrData | iowrCont =>
    obtain ⟨a, hat', -⟩ := h
    exact absurd hat (not_stopped hat' (by simp))
  | exit => exact absurd h id

/-- Going on from a reply costs no call. -/
theorem resume_left {h : Sysemu} {r : Reply} (hr : Answered ds g cur r h.pc) (fd : List Byte) :
    (h.resume r fd).pc.left ≤ left h.pc (.answered r) := by
  obtain ⟨pc, dev, handled⟩ := h
  cases pc with
  | info | stop => exact Nat.le_refl _
  | start | iordCont | iowrCont | iordAddr | iordData | iowrAddr | iowrData => exact Nat.le_refl _
  | poll =>
    obtain ⟨-, ⟨rfl, -⟩ | ⟨a', -, rfl⟩⟩ := hr
    · exact Nat.le_refl _
    · cases ha : a'.wr <;> exact Nat.le_refl _
  | exit => exact absurd hr id

/-- **A step of the direct calls** while the CPU waits for the program. -/
theorem waiting_step {ph : Phase} {a b : Rpc Sysemu (Guest × List Cmd) Call Reply}
    {i : Rpc.Action} (h : Emulated ds a) (hat : At a.x.1 ph)
    (hph : ph = .stopped ∨ ∃ a, ph = .held a)
    (hs : Rpc.Step sysemu ((protocol guestApi init).serve Call.cmd Call.decode) (Quietly Busy)
      a i b) :
    (At b.x.1 .running ∧ WentOn ph a.x.1.finished b.x.1.finished) ∨
      (At b.x.1 ph ∧ b.x.1.finished = a.x.1.finished ∧
        left b.host.pc b.slot + (if i = .post then 1 else 0) ≤ left a.host.pc a.slot) := by
  obtain ⟨hwin, hsane, groups, cur, hgroups, hhandled, hstage⟩ := h
  cases hs with
  | @post host x c hask =>
    refine .inr ⟨hat, rfl, ?_⟩
    show host.pc.left - 1 + 1 ≤ host.pc.left
    cases host.pc <;> exact Nat.le_refl _
  | @serve _ x c =>
    obtain ⟨hask, hwaits⟩ := hstage
    obtain ⟨g, log⟩ := x
    rw [serve_eq_direct guestApi guestApi_small]
    rcases hph with rfl | ⟨acc, rfl⟩
    · exact stopped_serve hsane hat hask hwaits
    · exact held_serve hsane hat hask hwaits
  | resume htell =>
    obtain ⟨fd, rfl⟩ := htell
    exact .inr ⟨hat, rfl, resume_left hstage fd⟩
  | background hbg =>
    obtain ⟨hxy⟩ := hbg
    obtain rfl := busy_waits hat hph hxy
    exact .inr ⟨hat, rfl, Nat.le_refl _⟩

/-- **A CPU that waits for the program goes on** in some run, in which the program makes the
    calls it has left. -/
theorem waiting_goes {ph : Phase} {s : Link Sysemu (Guest × List Cmd) Byte Int Cmd
    (List Byte) Reply} {n : Nat} {a : Rpc Sysemu (Guest × List Cmd) Call Reply}
    (h : Emulated ds a) (hc : Coupled sysemu (protocol guestApi init) Call.cmd Call.decode n s a)
    (hat : At s.x.1 ph) (hph : ph = .stopped ∨ ∃ a, ph = .held a) :
    ∃ is t, Path (Link.Step sysemu (protocol guestApi init) (Quietly Busy)) s is t ∧
      At t.x.1 .running ∧ WentOn ph s.x.1.finished t.x.1.finished := by
  induction hm : n + 113 * left a.host.pc a.slot using Nat.strongRecOn generalizing s n a with
  | ind m ih =>
    obtain ⟨i, t, hi, hs⟩ := emulated_goesOn h hc
    obtain ⟨n', a', hc', hn, ha⟩ := coupled_step (client_calls guestApi init) hc hs
    rw [Link.Action.cost_eq_one hi] at hn
    have hx : a.x = s.x := hc.same.2
    have hx' : a'.x = t.x := hc'.same.2
    have hgo : Emulated ds a' → At a'.x.1 ph → a'.x.1.finished = a.x.1.finished →
        n' + 113 * left a'.host.pc a'.slot < m → ∃ is t,
          Path (Link.Step sysemu (protocol guestApi init) (Quietly Busy)) s is t ∧
          At t.x.1 .running ∧ WentOn ph s.x.1.finished t.x.1.finished := by
      intro hem hat' hfin hlt
      obtain ⟨is, u, hp, hrun, hu⟩ := ih _ hlt hem hc' (hx' ▸ hat') rfl
      rw [← hx', hfin, hx] at hu
      exact ⟨i :: is, u, .cons hs hp, hrun, hu⟩
    have hadvance : ∀ {k}, Rpc.Step sysemu ((protocol guestApi init).serve Call.cmd Call.decode)
        (Quietly Busy) a k a' → (k = .post ∨ i.gain 112 = 0) → ∃ is t,
          Path (Link.Step sysemu (protocol guestApi init) (Quietly Busy)) s is t ∧
          At t.x.1 .running ∧ WentOn ph s.x.1.finished t.x.1.finished := by
      intro k hk hpost
      rcases waiting_step h (hx ▸ hat) hph hk with ⟨hrun, hfin⟩ | ⟨hat', hfin, hleft⟩
      · rw [hx, hx'] at hfin
        exact ⟨[i], t, .cons hs (.nil t), hx' ▸ hrun, hfin⟩
      · refine hgo (emulated_step h hk) hat' hfin ?_
        -- a call that begins is one of those that are left
        have hgain : i.gain 112 ≤ 113 := by cases i <;> decide
        rcases hpost with rfl | hzero
        · rw [if_pos rfl] at hleft
          omega
        · omega
    by_cases hb : i = .begin
    · subst hb
      exact hadvance (begins_post hs hc hc' ha) (.inl rfl)
    · have hzero : i.gain 112 = 0 := Link.Action.gain_eq_zero hb
      rcases ha with rfl | ⟨k, hk⟩
      · exact hgo h (hx ▸ hat) rfl (by omega)
      · exact hadvance hk (.inr hzero)

/-- **An access is finished** in some run, also one the supervisor has yet to look at. -/
theorem pending_finished {acc : Access} {s : Link Sysemu (Guest × List Cmd) Byte Int Cmd
    (List Byte) Reply} {n : Nat} {a : Rpc Sysemu (Guest × List Cmd) Call Reply}
    (h : Emulated ds a) (hc : Coupled sysemu (protocol guestApi init) Call.cmd Call.decode n s a)
    (hpend : s.x.1.pending = some acc) :
    ∃ is t w, Path (Link.Step sysemu (protocol guestApi init) (Quietly Busy)) s is t ∧
      At t.x.1 .running ∧ t.x.1.finished = s.x.1.finished ++ [(acc, w)] := by
  have hx : a.x = s.x := hc.same.2
  have ⟨hwin, hsane, groups, cur, hgroups, hhandled, hstage⟩ := h
  obtain ⟨ph, hat⟩ := stage_at hstage
  rw [hx] at hat hsane
  cases id hat with
  | stopped _ _ hnone | running _ _ hnone => simp [hpend] at hnone
  | held _ _ _ _ _ hsome =>
    obtain rfl := Option.some.inj (hpend.symm.trans hsome)
    obtain ⟨is, t, hp, hrun, w, hfin⟩ := waiting_goes h hc hat (.inr ⟨_, rfl⟩)
    exact ⟨is, t, w, hp, hrun, hfin⟩
  | trapped _ _ _ _ hsome =>
    obtain rfl := Option.some.inj (hpend.symm.trans hsome)
    -- the supervisor looks
    have hshows : ∀ k : Nat, Shows ((fun _ => acc.pins) k) acc := fun _ => shows_pins acc
    have hbusy := @Busy.poll s.x.1 (fun _ => acc.pins) fun b hb => by
      obtain rfl := Option.some.inj (hpend.symm.trans hb)
      exact hshows
    obtain ⟨-, hend⟩ := poll_trapped_on hsane hat hshows
    generalize hg : s.x.1.settle (s.x.1.m.pollOn fun _ => acc.pins) = g at hbusy hend
    have hs : Link.Step sysemu (protocol guestApi init) (Quietly Busy) s .background
        { s with x := (g, s.x.2) } := .background (.mk hbusy)
    rcases hend with ⟨-, hheld, hfin⟩ | ⟨-, hrun, w, hfin⟩
    · obtain ⟨n', a', hc', -, ha⟩ := coupled_step (client_calls guestApi init) hc hs
      have hem : Emulated ds a' := by
        rcases ha with rfl | ⟨k, hk⟩
        · exact h
        · exact emulated_step h hk
      obtain ⟨is, t, hp, hrun, w, ht⟩ := waiting_goes hem hc' hheld (.inr ⟨_, rfl⟩)
      exact ⟨_, t, w, .cons hs hp, hrun, by rw [ht, hfin]⟩
    · exact ⟨_, _, w, .cons hs (.nil _), hrun, hfin⟩

/-! ### The runs -/

section Reached

variable {data1 data2 : SerialData} {g₀ : Guest}
  {s : Link Sysemu (Guest × List Cmd) Byte Int Cmd (List Byte) Reply}

/-- The states the link reaches from the start of `cmd_sysemu`. -/
abbrev Emulates (init : List Byte) (data1 data2 : SerialData) (g₀ : Guest) :
    Link Sysemu (Guest × List Cmd) Byte Int Cmd (List Byte) Reply → Prop :=
  Reach (· = Link.start (Sysemu.init data1 data2) (g₀, []))
    (Link.Step sysemu (protocol guestApi init) (Quietly Busy))

/-- The invariant, over the link. -/
theorem link_emulated (hg : g₀.Init) (h : Emulates init data1 data2 g₀ s) :
    ∃ a n, Emulated [com2Dev data2, com1Dev data1] a ∧
      Coupled sysemu (protocol guestApi init) Call.cmd Call.decode n s a := by
  obtain ⟨a, ha, n, hc⟩ := Link.refines (client_calls guestApi init) h
  refine ⟨a, n, ha.invariant ?_ fun _ _ _ hb hs => emulated_step hb hs, hc⟩
  intro _ he
  obtain rfl := he
  exact emulated_init hg

/-- The CPU runs on, and the next access is finished too. -/
theorem next_finished (hg : g₀.Init) (h : Emulates init data1 data2 g₀ s)
    (hat : At s.x.1 .running) (acc : Access) : ∃ t w, Emulates init data1 data2 g₀ t ∧
      At t.x.1 .running ∧ t.x.1.finished = s.x.1.finished ++ [(acc, w)] := by
  cases id hat with
  | running hst hocd hpend =>
    obtain ⟨prog, σ, hp, hres, he⟩ := hocd
    have hpins : Traps (ocdRun prog σ) (fun _ => acc.pins) acc := fun _ _ _ _ => shows_pins acc
    obtain ⟨τ, hτ, -⟩ := resumes_exits hp hres hpins
    rw [← he] at hpins hτ
    have hbusy : Busy s.x.1 _ := .trap (resuming_running ⟨prog, σ, hp, hres, he⟩) hpins hτ
    have hquiet : Quietly Busy (s.x.1, s.x.2) (_, s.x.2) := .mk hbusy
    have htrap := Reach.step h (.background hquiet)
    obtain ⟨a, n, hem, hc⟩ := link_emulated hg htrap
    obtain ⟨is, t, w, hpath, hrun, hfin⟩ :=
      pending_finished hem hc (show _ = some acc from rfl)
    exact ⟨t, w, hpath.reach htrap, hrun, hfin⟩

/-- The CPU is started. -/
theorem link_starts (hg : g₀.Init) : ∃ s, Emulates init data1 data2 g₀ s ∧
    At s.x.1 .running ∧ s.x.1.finished = [] := by
  have hstart : Emulates init data1 data2 g₀ _ := .init rfl
  obtain ⟨a, n, hem, hc⟩ := link_emulated hg hstart
  obtain ⟨is, t, hpath, hrun, hfin⟩ := waiting_goes hem hc (guest_init hg).2 (.inl rfl)
  obtain ⟨-, -, -, -, hnone⟩ := hg
  exact ⟨t, hpath.reach hstart, hrun, hfin.trans hnone⟩

/-- **Every list of accesses is finished in some run.** -/
theorem accesses_finished (hg : g₀.Init) (as : List Access) :
    ∃ s, Emulates init data1 data2 g₀ s ∧ s.x.1.finished.map Prod.fst = as := by
  suffices hmore : ∀ s, Emulates init data1 data2 g₀ s → At s.x.1 .running → ∃ t,
      Emulates init data1 data2 g₀ t ∧
        t.x.1.finished.map Prod.fst = s.x.1.finished.map Prod.fst ++ as by
    obtain ⟨s, hs, hat, hnone⟩ := link_starts hg
    obtain ⟨t, ht, hfin⟩ := hmore s hs hat
    exact ⟨t, ht, by rw [hfin, hnone]; rfl⟩
  induction as with
  | nil => exact fun s hs _ => ⟨s, hs, (List.append_nil _).symm⟩
  | cons a as ih =>
    intro s hs hat
    obtain ⟨t, w, ht, hrun, hfin⟩ := next_finished hg hs hat a
    obtain ⟨u, hu, hfin'⟩ := ih t ht hrun
    exact ⟨u, hu, by rw [hfin', hfin, List.map_append, List.append_assoc]; rfl⟩

end Reached

end Runs

end LsePc.Host
