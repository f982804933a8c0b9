/-
  File:      LsePc/Host/IoSpace.lean
  Subject:   The I/O space the CPU sees while cmd_sysemu serves it.

  Three programs serve an access: the supervisor traps it and answers for its LED, the link
  carries it, and the monitor calls the handler of a serial port. To the CPU they are one
  machine, with a register for the LED and two serial ports, that takes one access at a time.

  * `IoSpace`, `IoSpace.inw`, `IoSpace.outw`, `IoSpace.Step`: that machine;
  * `Ahead`: where the devices of the monitor stand with the access under way;
  * `Backed`, `backed_step`: the finished accesses are a run of it;
  * **result** (`sysemu_refines`): so they are in every state reached over the link.
-/
import LsePc.Host.Serial
import LsePc.Host.Sysemu
import LsePc.Supervisor.Led

namespace LsePc.Host

open LsePc.Lib LsePc.Bridge LsePc.Supervisor

/-! ## 1. The machine -/

inductive SerialPort where
  | com1
  | com2
  deriving DecidableEq, Repr

/-- `COM1` and `COM2`. -/
def SerialPort.base : SerialPort → Word
  | .com1 => 0x3f8
  | .com2 => 0x2f8

/-- The serial port that has a port of the space. -/
def portCom (p : Word) : Option SerialPort :=
  if 0x2f8 ≤ p.toNat ∧ p.toNat < 0x300 then some .com2
  else if 0x3f8 ≤ p.toNat ∧ p.toNat < 0x400 then some .com1 else none

structure IoSpace where
  led : Byte
  com : SerialPort → Stream

namespace IoSpace

def setCom (x : IoSpace) (c : SerialPort) (s : Stream) : IoSpace :=
  { x with com := Function.update x.com c s }

/-- An IN; `fd` is what the file descriptor of the port delivers. -/
def inw (x : IoSpace) (p : Word) (fd : List Byte) : Word × IoSpace :=
  if p = ledPort then (x.led.setWidth 16, x)
  else match portCom p with
  | none => (0, x)
  | some c => (laneIn p (serialRead (x.com c).data fd (p - c.base)).1,
      x.setCom c ((x.com c).read (p - c.base, fd)))

/-- An OUT. -/
def outw (x : IoSpace) (p data : Word) : IoSpace :=
  if p = ledPort then { x with led := data.setWidth 8 }
  else match portCom p with
  | none => x
  | some c => x.setCom c { x.com c with
      data := serialWrite (x.com c).data (p - c.base) (laneOut p data) }

/-- One access of the CPU, with the word it is finished with. -/
inductive Step : IoSpace → Access × Option Word → IoSpace → Prop where
  | read {x : IoSpace} {a : Access} (fd : List Byte) (h : a.wr = false) :
      Step x (a, some (x.inw a.port fd).1) (x.inw a.port fd).2
  | write {x : IoSpace} {a : Access} (w : Option Word) (h : a.wr = true) :
      Step x (a, w) (x.outw a.port a.data)

/-- The devices `cmd_sysemu` registers for it. -/
def dev (x : IoSpace) : List Dev := [com2Dev (x.com .com2).data, com1Dev (x.com .com1).data]

/-- The CPU has read nothing yet, and the LED is off. -/
def start (data1 data2 : SerialData) : IoSpace where
  led := 0
  com
    | .com1 => { data := data1, got := data1.pending, out := [] }
    | .com2 => { data := data2, got := data2.pending, out := [] }

@[simp] theorem setCom_led (x : IoSpace) (c : SerialPort) (s : Stream) :
    (x.setCom c s).led = x.led := rfl

@[simp] theorem setCom_com (x : IoSpace) (c : SerialPort) (s : Stream) :
    (x.setCom c s).com = Function.update x.com c s := rfl

@[simp] theorem setCom_dev1 (x : IoSpace) (s : Stream) :
    (x.setCom .com1 s).dev = [com2Dev (x.com .com2).data, com1Dev s.data] := rfl

@[simp] theorem setCom_dev2 (x : IoSpace) (s : Stream) :
    (x.setCom .com2 s).dev = [com2Dev s.data, com1Dev (x.com .com1).data] := rfl

end IoSpace

section Devices

variable {x : IoSpace} {p : Word}

theorem com_covers (data1 data2 : SerialData) (p : Word) :
    ((com2Dev data2).covers p = decide (0x2f8 ≤ p.toNat ∧ p.toNat < 0x300)) ∧
      (com1Dev data1).covers p = decide (0x3f8 ≤ p.toNat ∧ p.toNat < 0x400) := ⟨rfl, rfl⟩

/-- A handler is called where the port is a serial port's. -/
theorem withDev_dev {α : Type} (f : Dev → α × SerialData) (x : IoSpace) (p : Word) :
    withDev f p x.dev = match portCom p with
      | none => none
      | some .com2 => some ((f (com2Dev (x.com .com2).data)).1,
          [com2Dev (f (com2Dev (x.com .com2).data)).2, com1Dev (x.com .com1).data])
      | some .com1 => some ((f (com1Dev (x.com .com1).data)).1,
          [com2Dev (x.com .com2).data, com1Dev (f (com1Dev (x.com .com1).data)).2]) := by
  obtain ⟨h2, h1⟩ := com_covers (x.com .com1).data (x.com .com2).data p
  rw [IoSpace.dev, portCom]
  by_cases hc2 : 0x2f8 ≤ p.toNat ∧ p.toNat < 0x300
  · rw [withDev, h2, if_pos (by simpa using hc2), if_pos hc2]
    rfl
  · rw [withDev, h2, if_neg (by simpa using hc2), if_neg hc2]
    by_cases hc1 : 0x3f8 ≤ p.toNat ∧ p.toNat < 0x400
    · rw [withDev, h1, if_pos (by simpa using hc1), if_pos hc1]
      rfl
    · rw [withDev, h1, if_neg (by simpa using hc1), if_neg hc1]
      rfl

/-- **The monitor reads its devices** as the CPU reads the space. -/
theorem devRead_dev (hp : p ≠ ledPort) (fd : List Byte) :
    (devRead x.dev p fd).1 = (x.inw p fd).1 ∧ (devRead x.dev p fd).2.1 = (x.inw p fd).2.dev := by
  rw [devRead, withDev_dev, IoSpace.inw, if_neg hp]
  cases portCom p with
  | none => exact ⟨rfl, rfl⟩
  | some c => cases c <;> exact ⟨rfl, rfl⟩

/-- **It writes them** as the CPU writes the space. -/
theorem devWrite_dev (hp : p ≠ ledPort) (data : Word) :
    (devWrite x.dev p data).1 = (x.outw p data).dev := by
  rw [devWrite, withDev_dev, IoSpace.outw, if_neg hp]
  cases portCom p with
  | none => rfl
  | some c => cases c <;> rfl

theorem inw_led (hp : p ≠ ledPort) (fd : List Byte) : (x.inw p fd).2.led = x.led := by
  rw [IoSpace.inw, if_neg hp]
  cases portCom p <;> rfl

theorem outw_led (hp : p ≠ ledPort) (data : Word) : (x.outw p data).led = x.led := by
  rw [IoSpace.outw, if_neg hp]
  cases portCom p <;> rfl

/-- An access to the LED is a step of the space, in which no serial port has a part. -/
theorem led_step {a : Access} {w : Option Word} {reg' : Byte} (hp : a.port = ledPort)
    (h : LedServes x.led (a, w) reg') :
    ∃ x', IoSpace.Step x (a, w) x' ∧ x'.led = reg' ∧ x'.dev = x.dev := by
  cases h with
  | read ha =>
    have hin : x.inw a.port [] = (x.led.setWidth 16, x) := by rw [IoSpace.inw, if_pos hp]
    refine ⟨x, ?_, rfl, rfl⟩
    have hs := IoSpace.Step.read (x := x) [] ha
    rwa [hin] at hs
  | write w ha =>
    have hout : x.outw a.port a.data = { x with led := a.data.setWidth 8 } := by
      rw [IoSpace.outw, if_pos hp]
    refine ⟨_, .write w ha, ?_, ?_⟩
    · rw [hout]
    · rw [hout]
      rfl

end Devices

/-! ## 2. Where the monitor stands -/

/-- The devices are those of the space, or one access ahead of it: the word of an IN is on its
    way to the CPU, or an OUT is not finished. -/
def Ahead (x : IoSpace) (g : Guest) (dev : List Dev) : Pc → Prop
  | .iordData v => ∃ a fd, g.pending = some a ∧ dev = (x.inw a.port fd).2.dev ∧
      v = (x.inw a.port fd).1
  | .iordCont => ∃ a fd, g.pending = some a ∧ dev = (x.inw a.port fd).2.dev ∧
      g.m.sv.iodata = (x.inw a.port fd).1
  | .iowrCont => ∃ a, g.pending = some a ∧ dev = (x.outw a.port a.data).dev
  | _ => dev = x.dev

/-- Where the program stands once its call has been served. -/
def Pc.served : Pc → Pc
  | .iordData _ => .iordCont
  | .iordCont | .iowrCont => .poll
  | pc => pc

def AheadIn (x : IoSpace) (g : Guest) (dev : List Dev) (pc : Pc) : Slot Call Reply → Prop
  | .idle | .posted _ => Ahead x g dev pc
  | .answered _ => Ahead x g dev pc.served

/-- **The finished accesses are a run of the space**, and the supervisor's LED and the devices
    of the monitor are its. -/
structure Backed (ds : List Dev) (x₀ : IoSpace)
    (a : Rpc Sysemu (Guest × List Cmd) Call Reply) : Prop where
  emulated : Emulated ds a
  space : ∃ x, Path IoSpace.Step x₀ a.x.1.finished x ∧ Led a.x.1 x.led ∧
    AheadIn x a.x.1 a.host.dev a.host.pc a.slot

section Steps

variable {init : List Byte} {ds : List Dev} {x x₀ : IoSpace} {g g' : Guest} {cur : List Handled}
  {pc : Pc} {dev : List Dev}

theorem led_eq (h : Led g x.led) (hdev : g'.m.sv.dev = g.m.sv.dev) : Led g' x.led := hdev.trans h

/-- **The supervisor serves a call**: a cont finishes the access the devices are ahead by. -/
theorem backed_serve {c : Call} (hs : Sane g) (hask : pc.ask = some c)
    (hw : Waits ds g cur pc) (hled : Led g x.led) (h : Ahead x g dev pc) :
    ∃ x' ys, Path IoSpace.Step x ys x' ∧ (direct guestApi c g).2.finished = g.finished ++ ys ∧
      Led (direct guestApi c g).2 x'.led ∧ Ahead x' (direct guestApi c g).2 dev pc.served := by
  obtain ⟨hstart, hstop, hcont⟩ := guestApi_dev g
  cases pc with
  | info | poll | iordAddr | iowrAddr | iowrData =>
    obtain rfl := Option.some.inj hask
    exact ⟨x, [], .nil x, (List.append_nil _).symm, hled, h⟩
  | stop =>
    obtain rfl := Option.some.inj hask
    obtain ⟨-, -, hfin⟩ := at_stop hs hw.1
    exact ⟨x, [], .nil x, by rw [List.append_nil]; exact hfin, led_eq hled hstop, h⟩
  | start =>
    obtain rfl := Option.some.inj hask
    obtain ⟨-, -, hfin⟩ := at_start hs hw.1
    exact ⟨x, [], .nil x, by rw [List.append_nil]; exact hfin, led_eq hled hstart, h⟩
  | iordData v =>
    obtain rfl := Option.some.inj hask
    obtain ⟨a, fd, hpend, hdev, hv⟩ := h
    exact ⟨x, [], .nil x, (List.append_nil _).symm, hled, a, fd, hpend, hdev, hv⟩
  | iordCont =>
    obtain rfl := Option.some.inj hask
    obtain ⟨a, hat, ha, -⟩ := hw
    obtain ⟨-, -, hport, hpend⟩ := hat.recorded
    obtain ⟨a', fd, hpend', hdev, hv⟩ := h
    obtain rfl := Option.some.inj (hpend'.symm.trans hpend)
    obtain ⟨-, -, w, hword, hfin⟩ := at_cont hs hat
    obtain rfl := hword ha
    rw [hv] at hfin
    refine ⟨_, [(a', _)], .cons (.read fd ha) (.nil _), hfin, ?_, hdev⟩
    rw [inw_led hport]
    exact led_eq hled hcont
  | iowrCont =>
    obtain rfl := Option.some.inj hask
    obtain ⟨a, hat, ha, -⟩ := hw
    obtain ⟨-, -, hport, hpend⟩ := hat.recorded
    obtain ⟨a', hpend', hdev⟩ := h
    obtain rfl := Option.some.inj (hpend'.symm.trans hpend)
    obtain ⟨-, -, w, -, hfin⟩ := at_cont hs hat
    refine ⟨_, [(a', w)], .cons (.write w ha) (.nil _), hfin, ?_, hdev⟩
    rw [outw_led hport]
    exact led_eq hled hcont
  | exit => exact absurd hw id

/-- **The program goes on from a reply**: a call of a handler takes the devices ahead. -/
theorem backed_resume {h : Sysemu} {r : Reply} (hr : Answered ds g cur r h.pc)
    (ha : Ahead x g h.dev h.pc.served) (fd : List Byte) :
    Ahead x g (h.resume r fd).dev (h.resume r fd).pc := by
  obtain ⟨pc, dev, handled⟩ := h
  cases pc with
  | info | stop | start | iordCont | iowrCont | iordData => exact ha
  | poll =>
    obtain ⟨-, ⟨rfl, -⟩ | ⟨a, -, rfl⟩⟩ := hr
    · exact ha
    · cases a.wr <;> exact ha
  | iordAddr =>
    obtain ⟨a, hat, -, rfl, -⟩ := hr
    obtain ⟨-, -, hport, hpend⟩ := hat.recorded
    obtain rfl : dev = x.dev := ha
    obtain ⟨hword, hdev⟩ := devRead_dev (x := x) hport fd
    simp only [Sysemu.resume, Reply.int, ofInt_toNat]
    exact ⟨a, fd, hpend, hdev, hword⟩
  | iowrAddr =>
    exact ha
  | iowrData p =>
    obtain ⟨a, hat, -, rfl, rfl, -⟩ := hr
    obtain ⟨-, -, hport, hpend⟩ := hat.recorded
    obtain rfl : dev = x.dev := ha
    simp only [Sysemu.resume, Reply.int, ofInt_toNat]
    exact ⟨a, hpend, devWrite_dev hport a.data⟩
  | exit => exact absurd hr id

/-- The CPU waits for the program, or the program has nothing under way. -/
theorem ahead_cases {slot : Slot Call Reply} (h : Stage ds g cur pc slot) :
    (∃ ph, At g ph ∧ (ph = .stopped ∨ ∃ a, ph = .held a)) ∨
      (Live g ∧ ∀ x' g' dev', AheadIn x' g' dev' pc slot ↔ dev' = x'.dev) := by
  have hheld : ∀ {a}, At g (.held a) → ∃ ph, At g ph ∧ (ph = .stopped ∨ ∃ a, ph = .held a) :=
    fun hat => ⟨_, hat, .inr ⟨_, rfl⟩⟩
  have hwaits : Waits ds g cur pc → (∃ ph, At g ph ∧ (ph = .stopped ∨ ∃ a, ph = .held a)) ∨
      (Live g ∧ ∀ x' g' dev', Ahead x' g' dev' pc ↔ dev' = x'.dev) := by
    intro h
    cases pc with
    | info | stop | start => exact .inl ⟨_, h.1, .inl rfl⟩
    | poll => exact .inr ⟨h.1, fun _ _ _ => Iff.rfl⟩
    | iordAddr | iordData | iordCont | iowrAddr | iowrData | iowrCont =>
      obtain ⟨a, hat, -⟩ := h
      exact .inl (hheld hat)
    | exit => exact absurd h id
  cases slot with
  | idle => exact hwaits h
  | posted c => exact hwaits h.2
  | answered r =>
    cases pc with
    | info | stop => exact .inl ⟨_, h.1, .inl rfl⟩
    | start | iordCont | iowrCont => exact .inr ⟨h.1, fun _ _ _ => Iff.rfl⟩
    | poll =>
      obtain ⟨-, ⟨-, hl⟩ | ⟨a, hat, -⟩⟩ := h
      · exact .inr ⟨hl, fun _ _ _ => Iff.rfl⟩
      · exact .inl (hheld hat)
    | iordAddr | iordData | iowrAddr | iowrData =>
      obtain ⟨a, hat, -⟩ := h
      exact .inl (hheld hat)
    | exit => exact absurd h id

/-- **The supervisor and the CPU take a step**: what they finish is a step of the space. -/
theorem backed_busy {slot : Slot Call Reply} (hs : Sane g) (hst : Stage ds g cur pc slot)
    (hled : Led g x.led) (h : AheadIn x g dev pc slot) (hb : Busy g g') :
    ∃ x' ys, Path IoSpace.Step x ys x' ∧ g'.finished = g.finished ++ ys ∧ Led g' x'.led ∧
      AheadIn x' g' dev pc slot := by
  rcases ahead_cases hst with ⟨ph, hat, hph⟩ | ⟨hl, hfree⟩
  · obtain rfl := busy_waits hat hph hb
    exact ⟨x, [], .nil x, (List.append_nil _).symm, hled, h⟩
  · have hdev := (hfree ..).mp h
    rcases busy_led hs hl hled hb with ⟨hfin, hled'⟩ | ⟨a, w, reg', hp, hfin, hserves, hled'⟩
    · exact ⟨x, [], .nil x, by rw [hfin, List.append_nil], hled', (hfree ..).mpr hdev⟩
    · obtain ⟨x', hstep, rfl, hsame⟩ := led_step hp hserves
      exact ⟨x', [(a, w)], .cons hstep (.nil x'), hfin, hled',
        (hfree ..).mpr (hdev.trans hsame.symm)⟩

/-- **One step of the program, the supervisor or the CPU.** -/
theorem backed_step {a b : Rpc Sysemu (Guest × List Cmd) Call Reply} {i : Rpc.Action}
    (h : Backed ds x₀ a)
    (hs : Rpc.Step sysemu ((protocol guestApi init).serve Call.cmd Call.decode) (Quietly Busy)
      a i b) :
    Backed ds x₀ b := by
  have hem := h.emulated
  refine ⟨emulated_step hem hs, ?_⟩
  obtain ⟨x, hrun, hled, hahead⟩ := h.space
  obtain ⟨-, hsane, -, cur, -, -, hstage⟩ := hem
  cases hs with
  | post hask => exact ⟨x, hrun, hled, hahead⟩
  | @serve _ y c =>
    obtain ⟨hask, hwaits⟩ := hstage
    obtain ⟨g, log⟩ := y
    rw [serve_eq_direct guestApi guestApi_small]
    obtain ⟨x', ys, hpath, hfin, hled', hahead'⟩ := backed_serve hsane hask hwaits hled hahead
    refine ⟨x', ?_, hled', hahead'⟩
    show Path IoSpace.Step x₀ (direct guestApi c g).2.finished x'
    rw [hfin]
    exact hrun.append hpath
  | resume htell =>
    obtain ⟨fd, rfl⟩ := htell
    exact ⟨x, hrun, hled, backed_resume hstage hahead fd⟩
  | background hbg =>
    obtain ⟨hxy⟩ := hbg
    obtain ⟨x', ys, hpath, hfin, hled', hahead'⟩ := backed_busy hsane hstage hled hahead hxy
    refine ⟨x', ?_, hled', hahead'⟩
    rw [hfin]
    exact hrun.append hpath

theorem backed_init {data1 data2 : SerialData} {log : List Cmd} (hg : g.Init) :
    Backed [com2Dev data2, com1Dev data1] (.start data1 data2)
      ⟨Sysemu.init data1 data2, .idle, g, log⟩ := by
  refine ⟨emulated_init hg, .start data1 data2, ?_, ?_, rfl⟩
  · obtain ⟨-, -, -, -, hfin⟩ := hg
    show Path IoSpace.Step _ g.finished _
    rw [hfin]
    exact .nil _
  · obtain ⟨m₀, hm, -⟩ := hg
    obtain ⟨τ, -, hinit⟩ := svInit_eq m₀
    have hgm := Option.some.inj (hm.symm.trans hinit)
    show g.m.sv.dev = _
    rw [hgm]
    rfl

end Steps

/-! ## 3. Runs over the link -/

section Runs

variable {x x₀ : IoSpace} {ys : List (Access × Option Word)}

theorem write_intact {s : Stream} (h : s.Intact) (offset value : Word) :
    Stream.Intact { s with data := serialWrite s.data offset value } := by
  have hsame : ∀ {data : SerialData}, data.queue = s.data.queue → data.cursor = s.data.cursor →
      data.queueSize = s.data.queueSize → Stream.Intact { s with data := data } := by
    intro data hq hc hn
    refine ⟨⟨by rw [hq]; exact h.sound.length, by rw [hc, hn]; exact h.sound.bound⟩, ?_⟩
    have hpend : data.pending = s.data.pending := by
      rw [SerialData.pending, SerialData.pending, hq, hc, hn]
    show s.out ++ data.pending.map word = s.got.map word
    rw [hpend]
    exact h.bytes
  unfold serialWrite
  split
  · exact hsame rfl rfl rfl
  · exact h

/-- The input streams stay intact, whatever the CPU does to the ports. -/
theorem step_intact {y : Access × Option Word} {x' : IoSpace} (h : ∀ c, (x.com c).Intact)
    (hs : IoSpace.Step x y x') (c : SerialPort) : (x'.com c).Intact := by
  have hset : ∀ c' s, s.Intact → ((x.setCom c' s).com c).Intact := by
    intro c' s hi
    rw [IoSpace.setCom_com, Function.update_apply]
    split
    · exact hi
    · exact h c
  cases hs with
  | @read a fd ha =>
    unfold IoSpace.inw
    split
    · exact h c
    · split
      · exact h c
      · exact hset _ _ (read_intact (h _) _)
  | @write a w ha =>
    unfold IoSpace.outw
    split
    · exact h c
    · split
      · exact h c
      · exact hset _ _ (write_intact (h _) _ _)

theorem path_intact (h : ∀ c, (x₀.com c).Intact) (hrun : Path IoSpace.Step x₀ ys x)
    (c : SerialPort) : (x.com c).Intact := by
  induction hrun with
  | nil => exact h c
  | cons hs _ ih => exact ih fun c => step_intact h hs c

theorem start_intact {data1 data2 : SerialData} (h1 : data1.Sound) (h2 : data2.Sound)
    (c : SerialPort) : ((IoSpace.start data1 data2).com c).Intact := by
  cases c with
  | com1 => exact ⟨h1, rfl⟩
  | com2 => exact ⟨h2, rfl⟩

/-- The devices of the monitor are those of the space, unless they have served the access under
    way before it is finished. -/
def StandsFor (x : IoSpace) (g : Guest) (dev : List Dev) : Prop :=
  dev = x.dev ∨ ∃ a w x', g.pending = some a ∧ IoSpace.Step x (a, w) x' ∧ dev = x'.dev

/-- **What the CPU has seen**: its finished accesses are a run of one I/O space, whose input
    streams are intact. The LED of the supervisor and the devices of the monitor are its. -/
def Refines (x₀ : IoSpace) (g : Guest) (dev : List Dev) : Prop :=
  ∃ x, Path IoSpace.Step x₀ g.finished x ∧ Led g x.led ∧ (∀ c, (x.com c).Intact) ∧
    StandsFor x g dev

/-- The devices are never more than the access under way ahead. -/
theorem ahead_dev {ds : List Dev} {g : Guest} {cur : List Handled} {pc : Pc} {dev : List Dev}
    {slot : Slot Call Reply} (hst : Stage ds g cur pc slot) (h : AheadIn x g dev pc slot) :
    StandsFor x g dev := by
  have hin : ∀ {a fd}, At g (.held a) → a.wr = false → dev = (x.inw a.port fd).2.dev →
      ∃ a w x', g.pending = some a ∧ IoSpace.Step x (a, w) x' ∧ dev = x'.dev := by
    intro a fd hat ha hdev
    obtain ⟨-, -, -, hpend⟩ := hat.recorded
    exact ⟨a, _, _, hpend, .read fd ha, hdev⟩
  have hpending : ∀ {a a' : Access}, At g (.held a) → g.pending = some a' → a' = a := by
    intro a a' hat hp
    obtain ⟨-, -, -, hpend⟩ := hat.recorded
    exact Option.some.inj (hp.symm.trans hpend)
  have hwaits : Waits ds g cur pc → Ahead x g dev pc → StandsFor x g dev := by
    intro hw ha
    cases pc with
    | info | stop | start | poll | iordAddr | iowrAddr | iowrData => exact .inl ha
    | iordData | iordCont =>
      obtain ⟨a, hat, hwr, -⟩ := hw
      obtain ⟨a', fd, hp, hdev, -⟩ := ha
      obtain rfl := hpending hat hp
      exact .inr (hin hat hwr hdev)
    | iowrCont =>
      obtain ⟨a, hat, hwr, -⟩ := hw
      obtain ⟨a', hp, hdev⟩ := ha
      obtain rfl := hpending hat hp
      exact .inr ⟨a', none, _, hp, .write none hwr, hdev⟩
    | exit => exact absurd hw id
  cases slot with
  | idle => exact hwaits hst h
  | posted c => exact hwaits hst.2 h
  | answered r =>
    cases pc with
    | info | stop | start | poll | iordAddr | iowrAddr | iowrData | iordCont | iowrCont =>
      exact .inl h
    | iordData =>
      obtain ⟨a, hat, hwr, -⟩ := hst
      obtain ⟨a', fd, hp, hdev, -⟩ := h
      obtain rfl := hpending hat hp
      exact .inr (hin hat hwr hdev)
    | exit => exact absurd hst id

/-- The invariant, over the link. -/
theorem link_backed {init : List Byte} {data1 data2 : SerialData} {g₀ : Guest} (hg : g₀.Init)
    {s : Link Sysemu (Guest × List Cmd) Byte Int Cmd (List Byte) Reply}
    (h : Reach (· = Link.start (Sysemu.init data1 data2) (g₀, []))
      (Link.Step sysemu (protocol guestApi init) (Quietly Busy)) s) :
    ∃ x, Path IoSpace.Step (.start data1 data2) s.x.1.finished x ∧ Led s.x.1 x.led ∧
      StandsFor x s.x.1 s.host.dev := by
  obtain ⟨a, ha, n, hc⟩ := Link.refines (client_calls guestApi init) h
  have hb : Backed [com2Dev data2, com1Dev data1] (.start data1 data2) a := by
    refine ha.invariant ?_ fun _ _ _ hb hs => backed_step hb hs
    intro _ he
    obtain rfl := he
    exact backed_init hg
  obtain ⟨x, hrun, hled, hahead⟩ := hb.space
  obtain ⟨-, -, -, cur, -, -, hstage⟩ := hb.emulated
  have hdev := ahead_dev hstage hahead
  obtain ⟨hhost, hx⟩ := hc.same
  rw [hx] at hrun hled hdev
  rw [hhost] at hdev
  exact ⟨x, hrun, hled, hdev⟩

/-- **The three programs are one I/O space to the CPU**, in every state reached over the
    link. -/
theorem sysemu_refines {init : List Byte} {data1 data2 : SerialData} (h1 : data1.Sound)
    (h2 : data2.Sound) {g₀ : Guest} (hg : g₀.Init)
    {s : Link Sysemu (Guest × List Cmd) Byte Int Cmd (List Byte) Reply}
    (h : Reach (· = Link.start (Sysemu.init data1 data2) (g₀, []))
      (Link.Step sysemu (protocol guestApi init) (Quietly Busy)) s) :
    Refines (.start data1 data2) s.x.1 s.host.dev := by
  obtain ⟨x, hrun, hled, hdev⟩ := link_backed hg h
  exact ⟨x, hrun, hled, path_intact (start_intact h1 h2) hrun, hdev⟩

/-- The CPU has read LSR of COM1 and written a byte to it. -/
theorem sysemu_refines_com1 : ∃ s : Link Sysemu (Guest × List Cmd) Byte Int Cmd (List Byte) Reply,
    s.x.1.finished.map Prod.fst = [⟨0x3fd, false, 0⟩, ⟨0x3f8, true, 0x41⟩] ∧
      Refines (.start (.fresh (List.replicate 512 0)) (.fresh (List.replicate 512 0)))
        s.x.1 s.host.dev := by
  obtain ⟨τ, -, hm⟩ := svInit_eq default
  have hg : (⟨_, [], none, []⟩ : Guest).Init := ⟨default, hm, rfl, rfl, rfl⟩
  have hsound : (SerialData.fresh (List.replicate 512 0)).Sound :=
    ⟨List.length_replicate, Nat.zero_le _⟩
  obtain ⟨s, hs, hfin⟩ := accesses_finished hg [⟨0x3fd, false, 0⟩, ⟨0x3f8, true, 0x41⟩]
  exact ⟨s, hfin, @sysemu_refines [] _ _ hsound hsound _ hg _ hs⟩

end Runs

end LsePc.Host
