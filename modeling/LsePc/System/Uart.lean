/-
  File:      LsePc/System/Uart.lean
  Subject:   The serial lines of the BIOS (sw/bios/src/uart.c) over the I/O space the CPU sees.

  The driver polls the line status, then moves a byte. To the rest of the BIOS a line is two
  lists: what has arrived, of which it has taken a part, and what it has sent.

  * `IoOp`, `Cpu`: the byte instructions of the CPU, as accesses to the space;
  * `uartReadb`, `uartWriteb`: the driver, its loops unrolled so many times;
  * `LineOp`, `LineStep`: the lines;
  * `Reads`: how the serial ports of the space read as lines;
  * **result** (`uart_implements`): the driver does on the ports what the operations do on the
    lines. No byte is lost, repeated or made up.
-/
import LsePc.Host.IoSpace
import LsePc.Lib.Prog

namespace LsePc.System

open LsePc.Lib LsePc.Bridge LsePc.Supervisor LsePc.Host

/-! ## 1. The instructions -/

/-- `inb` and `outb`. -/
inductive IoOp where
  | inb (port : Word)
  | outb (port : Word) (val : Byte)

abbrev IoOp.Answer : IoOp → Type
  | .inb _ => Byte
  | .outb _ _ => Unit

/-- The half of the data bus that a byte of a port is on. -/
def lane (port data : Word) : Byte :=
  if port &&& 1 ≠ 0 then (data >>> 8).setWidth 8 else data.setWidth 8

/-- The access on the bus that an instruction makes. -/
inductive Carries : Event IoOp IoOp.Answer → Access × Option Word → Prop where
  | inb {a : Access} (w : Word) (ha : a.wr = false) :
      Carries ⟨.inb a.port, lane a.port w⟩ (a, some w)
  | outb {a : Access} (w : Option Word) (ha : a.wr = true) :
      Carries ⟨.outb a.port (lane a.port a.data), ()⟩ (a, w)

def Cpu (x : IoSpace) (e : Event IoOp IoOp.Answer) (x' : IoSpace) : Prop :=
  ∃ y, Carries e y ∧ IoSpace.Step x y x'

/-- The byte a port gives comes to the CPU, and the byte the CPU gives to the port. -/
theorem lane_laneIn (port data : Word) : lane port (laneIn port data) = data.setWidth 8 := by
  have hmask : ∀ i < 8, (0xFF00 : Word).getLsbD (8 + i) = true := by decide
  unfold lane laneIn
  split
  · refine BitVec.eq_of_getLsbD_eq fun i hi => ?_
    simp only [BitVec.getLsbD_setWidth, BitVec.getLsbD_ushiftRight, BitVec.getLsbD_and,
      BitVec.getLsbD_shiftLeft, hmask i hi]
    simp [show 8 + i < 16 by omega, show ¬ 8 + i < 8 by omega]
  · rfl

theorem lane_eq (port data : Word) : lane port data = (laneOut port data).setWidth 8 := by
  have hmask : ∀ i < 8, (0xFF : Word).getLsbD i = true := by decide
  unfold lane laneOut
  split
  · refine BitVec.eq_of_getLsbD_eq fun i hi => ?_
    simp only [BitVec.getLsbD_setWidth, BitVec.getLsbD_ushiftRight, BitVec.getLsbD_and, hmask i hi]
    simp
  · rfl

/-! ## 2. The driver -/

abbrev Io (α : Type) := Prog IoOp IoOp.Answer α

def inb (port : Word) : Io Byte := Prog.perform (IoOp.inb port)
def outb (port : Word) (val : Byte) : Io Unit := Prog.perform (IoOp.outb port val)

def statusReg (port : Word) : Word := port + 5

def RECEIVER_READY : Byte := 1
def TRANSMITTER_READY : Byte := 1 <<< 5
def LED_PORT : Word := 0x10

def canReceive (port : Word) : Io Bool := do
  let status ← inb (statusReg port)
  pure (status &&& RECEIVER_READY ≠ 0)

def canTransmit (port : Word) : Io Bool := do
  let status ← inb (statusReg port)
  pure (status &&& TRANSMITTER_READY ≠ 0)

/-- The line status is read up to `n` times. -/
def uartReadb (port : Word) (n : Nat) : Io UInt8 :=
  (canReceive port).await (do
    let c ← inb port
    pure (UInt8.ofBitVec c)) n

def uartWriteb (port : Word) (c : UInt8) (n : Nat) : Io Unit :=
  (canTransmit port).await (do
    let led ← inb LED_PORT
    outb LED_PORT (led ^^^ 1)
    outb port c.toBitVec) n

/-! ## 3. The lines -/

/-- What the rest of the BIOS uses of the driver. -/
inductive LineOp where
  | canReceive (c : SerialPort)
  | readb (c : SerialPort)
  | writeb (c : SerialPort) (b : UInt8)

abbrev LineOp.Answer : LineOp → Type
  | .canReceive _ => Bool
  | .readb _ => UInt8
  | .writeb _ _ => Unit

/-- The driver for an operation. -/
def uart (n : Nat) : (i : LineOp) → Io i.Answer
  | .canReceive c => canReceive c.base
  | .readb c => uartReadb c.base n
  | .writeb c b => uartWriteb c.base b n

/-- What has come from the other end, what the BIOS has taken of it, and what it has sent. -/
structure Line where
  arrived : List UInt8
  taken : List UInt8
  sent : List UInt8

abbrev Lines := SerialPort → Line

/-- Something more has arrived. -/
def Grows (l l' : Lines) : Prop :=
  ∀ c, (l c).arrived <+: (l' c).arrived ∧ (l' c).taken = (l c).taken ∧ (l' c).sent = (l c).sent

theorem Grows.refl (l : Lines) : Grows l l := fun _ => ⟨List.prefix_refl _, rfl, rfl⟩

theorem Grows.trans {l l' l'' : Lines} (h : Grows l l') (h' : Grows l' l'') : Grows l l'' := by
  intro c
  obtain ⟨harr, htaken, hsent⟩ := h c
  obtain ⟨harr', htaken', hsent'⟩ := h' c
  exact ⟨harr.trans harr', htaken'.trans htaken, hsent'.trans hsent⟩

/-- **An operation of the lines**: more may arrive before it. A byte is taken when it is next,
    and only then. -/
inductive LineStep : Lines → Event LineOp LineOp.Answer → Lines → Prop where
  | canReceive {l l' : Lines} (h : Grows l l') (c : SerialPort) :
      LineStep l ⟨.canReceive c, decide ((l' c).taken ≠ (l' c).arrived)⟩ l'
  | readb {l l' : Lines} (h : Grows l l') (c : SerialPort) (b : UInt8)
      (hb : (l' c).taken ++ [b] <+: (l' c).arrived) :
      LineStep l ⟨.readb c, b⟩ (Function.update l' c { l' c with taken := (l' c).taken ++ [b] })
  | writeb {l l' : Lines} (h : Grows l l') (c : SerialPort) (b : UInt8) :
      LineStep l ⟨.writeb c b, ()⟩ (Function.update l' c { l' c with sent := (l' c).sent ++ [b] })

/-! ## 4. How the ports read as lines -/

def bytes (l : List Byte) : List UInt8 := l.map UInt8.ofBitVec

/-- A serial port of the space and a line. -/
structure ReadsCom (s : Stream) (l : Line) : Prop where
  intact : s.Intact
  arrived : l.arrived = bytes s.got
  taken : s.out = l.taken.map fun b => word b.toBitVec
  sent : l.sent = bytes s.data.output

def Reads (x : IoSpace) (l : Lines) : Prop := ∀ c, ReadsCom (x.com c) (l c)

section
variable {x x' : IoSpace} {l : Lines} {s : Stream}

theorem bytes_append (l l' : List Byte) : bytes (l ++ l') = bytes l ++ bytes l' := List.map_append

theorem word_inj {a b : Byte} (h : word a = word b) : a = b := by
  have h' := congrArg (fun w : Word => w.setWidth 8) h
  simpa [word] using h'

/-- What has arrived is what was taken, and what is queued. -/
theorem ReadsCom.arrived_eq {l : Line} (h : ReadsCom s l) :
    l.arrived = l.taken ++ bytes s.data.pending := by
  have hmap : (l.taken.map UInt8.toBitVec ++ s.data.pending).map word = s.got.map word := by
    rw [← h.intact.bytes, h.taken, List.map_append, List.map_map]
    rfl
  have hgot := List.map_injective_iff.mpr (fun _ _ => word_inj) hmap
  rw [h.arrived, ← hgot, bytes_append, bytes, List.map_map]
  simp [Function.comp_def]

theorem ReadsCom.taken_eq_iff {l : Line} (h : ReadsCom s l) :
    l.taken ≠ l.arrived ↔ s.data.pending ≠ [] := by
  rw [h.arrived_eq, ne_eq, List.self_eq_append_right, bytes, List.map_eq_nil_iff]

/-! ### One instruction -/

/-- The registers of a serial port. -/
theorem port_com (c : SerialPort) : ∀ k < 8, portCom (c.base + BitVec.ofNat 16 k) = some c ∧
    c.base + BitVec.ofNat 16 k ≠ ledPort ∧
    c.base + BitVec.ofNat 16 k - c.base = BitVec.ofNat 16 k := by
  cases c with
  | com1 => decide
  | com2 => decide

theorem cpu_inb {port : Word} {b : Byte} (h : Cpu x ⟨.inb port, b⟩ x') :
    ∃ fd, x' = (x.inw port fd).2 ∧ b = lane port (x.inw port fd).1 := by
  obtain ⟨y, hc, hs⟩ := h
  cases hc with
  | inb w ha =>
    cases hs with
    | read fd _ => exact ⟨fd, rfl, rfl⟩
    | write _ hw => simp [ha] at hw

theorem cpu_outb {port : Word} {b : Byte} (h : Cpu x ⟨.outb port b, ()⟩ x') :
    ∃ data, x' = x.outw port data ∧ b = lane port data := by
  obtain ⟨y, hc, hs⟩ := h
  cases hc with
  | @outb a w ha =>
    cases hs with
    | read _ hr => simp [ha] at hr
    | write _ _ => exact ⟨a.data, rfl, rfl⟩

/-- An IN from a register of a serial port. -/
theorem cpu_inb_com {c : SerialPort} {k : Nat} {b : Byte} (hk : k < 8)
    (h : Cpu x ⟨.inb (c.base + BitVec.ofNat 16 k), b⟩ x') :
    ∃ fd, x' = x.setCom c ((x.com c).read (BitVec.ofNat 16 k, fd)) ∧
      b = (serialRead (x.com c).data fd (BitVec.ofNat 16 k)).1.setWidth 8 := by
  obtain ⟨hport, hled, hoff⟩ := port_com c k hk
  obtain ⟨fd, hx, hb⟩ := cpu_inb h
  rw [IoSpace.inw, if_neg hled, hport] at hx hb
  simp only [hoff, lane_laneIn] at hx hb
  exact ⟨fd, hx, hb⟩

/-- An OUT to the transmitter. -/
theorem cpu_outb_com {c : SerialPort} {b : Byte} (h : Cpu x ⟨.outb c.base b, ()⟩ x') :
    x' = x.setCom c { x.com c with
      data := { (x.com c).data with output := (x.com c).data.output ++ [b] } } := by
  obtain ⟨hport, hled, hoff⟩ := port_com c 0 (by decide)
  rw [show c.base + BitVec.ofNat 16 0 = c.base from BitVec.add_zero _] at hport hled hoff
  obtain ⟨data, rfl, rfl⟩ := cpu_outb h
  rw [IoSpace.outw, if_neg hled, hport, lane_eq]
  simp only [hoff]
  rfl

/-- The LED's port is no serial port's. -/
theorem cpu_led {e : Event IoOp IoOp.Answer} (h : Cpu x e x')
    (he : (∃ b, e = ⟨.inb LED_PORT, b⟩) ∨ ∃ b, e = ⟨.outb LED_PORT b, ()⟩) : x'.com = x.com := by
  rcases he with ⟨b, rfl⟩ | ⟨b, rfl⟩
  · obtain ⟨fd, rfl, -⟩ := cpu_inb h
    rfl
  · obtain ⟨data, rfl, -⟩ := cpu_outb h
    rfl

/-! ### What it does to the lines -/

/-- One port is read or written, the line of it follows. -/
theorem Reads.setCom (h : Reads x l) {c : SerialPort} {s : Stream} {l' : Line}
    (hc : ReadsCom s l') : Reads (x.setCom c s) (Function.update l c l') := by
  intro c'
  rw [IoSpace.setCom_com, Function.update_apply, Function.update_apply]
  split
  · exact hc
  · exact h c'

theorem grows_update {c : SerialPort} {more : List UInt8} :
    Grows l (Function.update l c { l c with arrived := (l c).arrived ++ more }) := by
  intro c'
  rw [Function.update_apply]
  split
  · rename_i he
    subst he
    exact ⟨List.prefix_append _ _, rfl, rfl⟩
  · exact ⟨List.prefix_refl _, rfl, rfl⟩

theorem fill_output (data : SerialData) (fd : List Byte) : (data.fill fd).output = data.output := by
  unfold SerialData.fill
  dsimp only
  split <;> rfl

theorem serialRead_output (data : SerialData) (fd : List Byte) (offset : Word) :
    (serialRead data fd offset).2.output = data.output := by
  refine Eq.trans ?_ (fill_output data fd)
  unfold serialRead
  dsimp only
  split
  · split <;> rfl
  · rfl
  · rfl

/-- The byte of the line status. -/
theorem lsr_byte {r : Word} (h : r = thrReady ||| dataAvl ∨ r = thrReady) :
    (r.setWidth 8 &&& RECEIVER_READY ≠ 0 ↔ r &&& dataAvl ≠ 0) ∧
      r.setWidth 8 &&& TRANSMITTER_READY ≠ 0 := by
  rcases h with rfl | rfl
  · decide
  · decide

/-- **A read of the line status**: what has come is queued, and the status tells. -/
theorem reads_lsr {c : SerialPort} {b : Byte} (h : Reads x l)
    (hs : Cpu x ⟨.inb (statusReg c.base), b⟩ x') : ∃ l', Grows l l' ∧ Reads x' l' ∧
      (b &&& RECEIVER_READY ≠ 0 ↔ (l' c).taken ≠ (l' c).arrived) ∧
      b &&& TRANSMITTER_READY ≠ 0 := by
  obtain ⟨fd, rfl, rfl⟩ := cpu_inb_com (k := 5) (by decide) hs
  have hc := h c
  have htells := lsr_tells hc.intact fd
  have hstatus : (serialRead (x.com c).data fd lsr).1 = thrReady ||| dataAvl ∨
      (serialRead (x.com c).data fd lsr).1 = thrReady := ite_eq_or_eq _ _ _
  obtain ⟨hreceiver, htransmitter⟩ := lsr_byte hstatus
  have hread : ReadsCom ((x.com c).read (lsr, fd))
      { l c with arrived := (l c).arrived ++ bytes ((x.com c).data.chunk fd) } := by
    refine ⟨read_intact hc.intact _, ?_, ?_, ?_⟩
    · exact (congrArg (· ++ _) hc.arrived).trans (bytes_append _ _).symm
    · have hnone : (x.com c).data.returned fd lsr = [] := if_neg fun h => absurd h.1 (by decide)
      show (x.com c).out ++ (x.com c).data.returned fd lsr = _
      rw [hnone, List.append_nil]
      exact hc.taken
    · exact hc.sent.trans (congrArg bytes (serialRead_output ..).symm)
  refine ⟨_, grows_update, h.setCom hread, ?_, htransmitter⟩
  rw [Function.update_self, hread.taken_eq_iff, ← htells.available]
  exact hreceiver

/-- **A read of the receiver** when there is a byte: the line gives its next one. -/
theorem reads_rbr {c : SerialPort} {b : Byte} (h : Reads x l) (hav : (l c).taken ≠ (l c).arrived)
    (hs : Cpu x ⟨.inb c.base, b⟩ x') : (l c).taken ++ [UInt8.ofBitVec b] <+: (l c).arrived ∧
      Reads x' (Function.update l c
        { l c with taken := (l c).taken ++ [UInt8.ofBitVec b] }) := by
  have hs' : Cpu x ⟨.inb (c.base + BitVec.ofNat 16 0), b⟩ x' := by
    rwa [show c.base + BitVec.ofNat 16 0 = c.base from BitVec.add_zero _]
  obtain ⟨fd, rfl, rfl⟩ := cpu_inb_com (k := 0) (by decide) hs'
  have hc := h c
  obtain ⟨b', rest, hpend⟩ := List.exists_cons_of_ne_nil (hc.taken_eq_iff.mp hav)
  have hq : (x.com c).data.queueSize ≠ 0 := by
    rw [ne_eq, ← pending_eq_nil hc.intact.sound, hpend]
    exact List.cons_ne_nil _ _
  have hchunk : (x.com c).data.chunk fd = [] := if_neg hq
  have hret : (x.com c).data.returned fd rbr = [word b'] := by
    rw [returned_byte hc.intact.sound, hpend]
    rfl
  have hword : (serialRead (x.com c).data fd rbr).1 = word b' := by
    unfold SerialData.returned at hret
    split at hret
    · exact List.head_eq_of_cons_eq hret
    · exact absurd hret (List.cons_ne_nil _ _).symm
  have hb : (serialRead (x.com c).data fd rbr).1.setWidth 8 = b' := by
    rw [hword, word]
    simp
  refine ⟨?_, h.setCom ⟨read_intact hc.intact _, ?_, ?_, ?_⟩⟩
  · rw [hc.arrived_eq, hpend]
    exact (List.prefix_append_right_inj _).mpr ⟨bytes rest, by rw [← hb]; rfl⟩
  · show (l c).arrived = bytes ((x.com c).got ++ (x.com c).data.chunk fd)
    rw [hchunk, List.append_nil]
    exact hc.arrived
  · show (x.com c).out ++ (x.com c).data.returned fd rbr = _
    rw [hret, hc.taken, List.map_append, List.map_singleton]
    exact congrArg (fun b : Byte => _ ++ [word b]) hb.symm
  · exact hc.sent.trans (congrArg bytes (serialRead_output ..).symm)

/-- **A write to the transmitter.** -/
theorem reads_thr {c : SerialPort} {b : UInt8} (h : Reads x l)
    (hs : Cpu x ⟨.outb c.base b.toBitVec, ()⟩ x') :
    Reads x' (Function.update l c { l c with sent := (l c).sent ++ [b] }) := by
  obtain rfl := cpu_outb_com hs
  have hc := h c
  refine h.setCom ⟨?_, hc.arrived, hc.taken, ?_⟩
  · have hi := write_intact hc.intact rbr (word b.toBitVec)
    have hbyte : (word b.toBitVec).setWidth 8 = b.toBitVec := by simp [word]
    have hdata : serialWrite (x.com c).data rbr (word b.toBitVec) =
        { (x.com c).data with output := (x.com c).data.output ++ [b.toBitVec] } :=
      congrArg (fun b : Byte =>
        { (x.com c).data with output := (x.com c).data.output ++ [b] }) hbyte
    rwa [hdata] at hi
  · show (l c).sent ++ [b] = bytes ((x.com c).data.output ++ [b.toBitVec])
    rw [bytes_append, hc.sent]
    rfl

/-- The LED does not concern the lines. -/
theorem reads_led (h : Reads x l) (hcom : x'.com = x.com) : Reads x' l := by
  intro c
  rw [hcom]
  exact h c

/-! ## 5. The driver is the lines -/

theorem runs_canReceive {port : Word} {r : Bool} : Runs Cpu (canReceive port) x r x' ↔
    ∃ b, Cpu x ⟨.inb (statusReg port), b⟩ x' ∧ r = decide (b &&& RECEIVER_READY ≠ 0) := by
  simp only [canReceive, inb, Prog.bind_eq, Prog.pure_eq, runs_bind, runs_perform, runs_ret]
  constructor
  · rintro ⟨b, u, hs, rfl, rfl⟩
    exact ⟨b, hs, rfl⟩
  · rintro ⟨b, hs, rfl⟩
    exact ⟨b, x', hs, rfl, rfl⟩

theorem runs_canTransmit {port : Word} {r : Bool} : Runs Cpu (canTransmit port) x r x' ↔
    ∃ b, Cpu x ⟨.inb (statusReg port), b⟩ x' ∧ r = decide (b &&& TRANSMITTER_READY ≠ 0) := by
  simp only [canTransmit, inb, Prog.bind_eq, Prog.pure_eq, runs_bind, runs_perform, runs_ret]
  constructor
  · rintro ⟨b, u, hs, rfl, rfl⟩
    exact ⟨b, hs, rfl⟩
  · rintro ⟨b, hs, rfl⟩
    exact ⟨b, x', hs, rfl, rfl⟩

/-- A poll that is under way has read the status or not. -/
theorem begins_poll {port : Word} {f : Byte → Bool}
    (h : Begins Cpu ((inb port).bind fun b => .ret (f b)) x x') :
    x' = x ∨ ∃ b, Cpu x ⟨.inb port, b⟩ x' := by
  simp only [inb, begins_bind, begins_perform, runs_perform, begins_ret] at h
  rcases h with (rfl | ⟨b, hs⟩) | ⟨b, u, hs, rfl⟩
  · exact .inl rfl
  · exact .inr ⟨b, hs⟩
  · exact .inr ⟨b, hs⟩

/-- Since the lines were `l`, more may have come. -/
def Since (l : Lines) (x : IoSpace) : Prop := ∃ l', Grows l l' ∧ Reads x l'

theorem Since.lsr {c : SerialPort} {b : Byte} (h : Since l x)
    (hs : Cpu x ⟨.inb (statusReg c.base), b⟩ x') : ∃ l', Grows l l' ∧ Reads x' l' ∧
      (b &&& RECEIVER_READY ≠ 0 ↔ (l' c).taken ≠ (l' c).arrived) := by
  obtain ⟨l₁, hg₁, hx⟩ := h
  obtain ⟨l', hg, hx', hb, -⟩ := reads_lsr hx hs
  exact ⟨l', hg₁.trans hg, hx', hb⟩

theorem Since.poll {c : SerialPort} {f : Byte → Bool} (h : Since l x)
    (hb : Begins Cpu ((inb (statusReg c.base)).bind fun b => .ret (f b)) x x') : Since l x' := by
  rcases begins_poll hb with rfl | ⟨b, hs⟩
  · exact h
  · obtain ⟨l', hg, hx', -⟩ := h.lsr hs
    exact ⟨l', hg, hx'⟩

/-- A byte can be read. -/
def CanRead (l : Lines) (c : SerialPort) (x : IoSpace) : Prop :=
  ∃ l', Grows l l' ∧ Reads x l' ∧ (l' c).taken ≠ (l' c).arrived

theorem receive_polls {c : SerialPort} {r : Bool} (h : Since l x)
    (hr : Runs Cpu (canReceive c.base) x r x') : Since l x' ∧ (r = true → CanRead l c x') := by
  obtain ⟨b, hs, rfl⟩ := runs_canReceive.mp hr
  obtain ⟨l', hg, hx', hb⟩ := h.lsr hs
  refine ⟨⟨l', hg, hx'⟩, fun ht => ⟨l', hg, hx', hb.mp ?_⟩⟩
  simpa using ht

theorem transmit_polls {c : SerialPort} {r : Bool} (h : Since l x)
    (hr : Runs Cpu (canTransmit c.base) x r x') : Since l x' ∧ (r = true → Since l x') := by
  obtain ⟨b, hs, rfl⟩ := runs_canTransmit.mp hr
  obtain ⟨l', hg, hx', -⟩ := h.lsr hs
  exact ⟨⟨l', hg, hx'⟩, fun _ => ⟨l', hg, hx'⟩⟩

/-- The byte is taken. -/
theorem CanRead.take {c : SerialPort} {b : Byte} (h : CanRead l c x)
    (hs : Cpu x ⟨.inb c.base, b⟩ x') :
    ∃ l', LineStep l ⟨.readb c, UInt8.ofBitVec b⟩ l' ∧ Reads x' l' := by
  obtain ⟨l₁, hg, hx, hav⟩ := h
  obtain ⟨hnext, hx'⟩ := reads_rbr hx hav hs
  exact ⟨_, .readb hg c _ hnext, hx'⟩

/-- The byte is sent. -/
theorem Since.send {c : SerialPort} {b : UInt8} (h : Since l x)
    (hs : Cpu x ⟨.outb c.base b.toBitVec, ()⟩ x') :
    ∃ l', LineStep l ⟨.writeb c b, ()⟩ l' ∧ Reads x' l' := by
  obtain ⟨l₁, hg, hx⟩ := h
  exact ⟨_, .writeb hg c b, reads_thr hx hs⟩

theorem Since.led {e : Event IoOp IoOp.Answer} (h : Since l x) (hs : Cpu x e x')
    (he : (∃ b, e = ⟨.inb LED_PORT, b⟩) ∨ ∃ b, e = ⟨.outb LED_PORT b, ()⟩) : Since l x' := by
  obtain ⟨l', hg, hx⟩ := h
  exact ⟨l', hg, reads_led hx (cpu_led hs he)⟩

/-- **The driver is the lines**: it does on the ports what the operations do, and before the
    end of an operation nothing but that more may have arrived. -/
theorem uart_implements (n : Nat) : Implements Cpu LineStep Grows Reads (uart n) where
  ends := by
    intro x l x' i o hx h
    have hsince : Since l x := ⟨l, .refl l, hx⟩
    cases i with
    | canReceive c =>
      obtain ⟨b, hs, rfl⟩ := runs_canReceive.mp h
      obtain ⟨l', hg, hx', hb⟩ := hsince.lsr hs
      rw [decide_eq_decide.mpr hb]
      exact ⟨l', .canReceive hg c, hx'⟩
    | readb c =>
      obtain ⟨u, hu, hbody⟩ := runs_await receive_polls hsince h
      simp only [inb, Prog.bind_eq, Prog.pure_eq, runs_bind, runs_perform, runs_ret] at hbody
      obtain ⟨b, _, hs, rfl, rfl⟩ := hbody
      exact hu.take hs
    | writeb c b =>
      obtain ⟨u, hu, hbody⟩ := runs_await transmit_polls hsince h
      simp only [inb, outb, Prog.bind_eq, runs_bind, runs_perform] at hbody
      obtain ⟨led, u₁, hled, _, u₂, hled', hs⟩ := hbody
      exact ((hu.led hled (.inl ⟨_, rfl⟩)).led hled' (.inr ⟨_, rfl⟩)).send hs
  issues := by
    intro x l x' i hx h
    have hsince : Since l x := ⟨l, .refl l, hx⟩
    have hquiet : Since l x' → ∃ l', (Grows l l' ∨ ∃ o, LineStep l ⟨i, o⟩ l') ∧ Reads x' l' := by
      rintro ⟨l', hg, hx'⟩
      exact ⟨l', .inl hg, hx'⟩
    have hdone : ∀ {o}, (∃ l', LineStep l ⟨i, o⟩ l' ∧ Reads x' l') →
        ∃ l', (Grows l l' ∨ ∃ o, LineStep l ⟨i, o⟩ l') ∧ Reads x' l' := by
      rintro o ⟨l', hs, hx'⟩
      exact ⟨l', .inr ⟨o, hs⟩, hx'⟩
    cases i with
    | canReceive c => exact hquiet (hsince.poll h)
    | readb c =>
      rcases begins_await receive_polls hsince h with ⟨u, hu, hpoll⟩ | ⟨u, hu, hbody⟩
      · exact hquiet (hu.poll hpoll)
      · simp only [inb, Prog.bind_eq, Prog.pure_eq, begins_bind, begins_perform, runs_perform,
          begins_ret] at hbody
        rcases hbody with (rfl | ⟨b, hs⟩) | ⟨b, _, hs, rfl⟩
        · obtain ⟨l', hg, hx', -⟩ := hu
          exact hquiet ⟨l', hg, hx'⟩
        · exact hdone (hu.take hs)
        · exact hdone (hu.take hs)
    | writeb c b =>
      rcases begins_await transmit_polls hsince h with ⟨u, hu, hpoll⟩ | ⟨u, hu, hbody⟩
      · exact hquiet (hu.poll hpoll)
      · simp only [inb, outb, Prog.bind_eq, begins_bind, begins_perform, runs_perform] at hbody
        rcases hbody with (rfl | ⟨led, hs⟩) | ⟨led, u₁, hled, hrest⟩
        · exact hquiet hu
        · exact hquiet (hu.led hs (.inl ⟨_, rfl⟩))
        · have hu₁ := hu.led hled (.inl ⟨_, rfl⟩)
          rcases hrest with (rfl | ⟨_, hs⟩) | ⟨_, u₂, hled', rfl | ⟨_, hs⟩⟩
          · exact hquiet hu₁
          · exact hquiet (hu₁.led hs (.inr ⟨_, rfl⟩))
          · exact hquiet (hu₁.led hled' (.inr ⟨_, rfl⟩))
          · exact hdone ((hu₁.led hled' (.inr ⟨_, rfl⟩)).send hs)

end

/-! ## 6. Over the link -/

/-- The lines before the first instruction: what is queued has arrived. -/
def Lines.start (data1 data2 : SerialData) : Lines
  | .com1 => { arrived := bytes data1.pending, taken := [], sent := bytes data1.output }
  | .com2 => { arrived := bytes data2.pending, taken := [], sent := bytes data2.output }

theorem reads_start {data1 data2 : SerialData} (h1 : data1.Sound) (h2 : data2.Sound) :
    Reads (.start data1 data2) (.start data1 data2) := by
  intro c
  cases c with
  | com1 => exact ⟨start_intact h1 h2 .com1, rfl, rfl, rfl⟩
  | com2 => exact ⟨start_intact h1 h2 .com2, rfl, rfl, rfl⟩

/-- The instructions of a run are the accesses of a run of the space. -/
theorem path_cpu {x x' : IoSpace} {tr : List (Event IoOp IoOp.Answer)}
    {ys : List (Access × Option Word)} (hc : List.Forall₂ Carries tr ys)
    (h : Path IoSpace.Step x ys x') : Path Cpu x tr x' := by
  induction hc generalizing x with
  | nil =>
    cases h
    exact .nil x'
  | cons hc _ ih =>
    cases h with
    | cons hs h => exact .cons ⟨_, hc, hs⟩ (ih h)

/-- The devices of the monitor are ports that read as these lines, or one access ahead. -/
def Serves (g : Guest) (dev : List Host.Dev) (l : Lines) : Prop :=
  ∃ x, Reads x l ∧ StandsFor x g dev

/-- **A program of the BIOS over the link**: while the accesses that the CPU has finished are
    those of a program over the lines with the driver put in, the program is in a run over the
    lines, and these are what the monitor serves. -/
theorem link_program {init : List Byte} {data1 data2 : SerialData} (h1 : data1.Sound)
    (h2 : data2.Sound) {g₀ : Guest} (hg : g₀.Init)
    {s : Link Sysemu (Guest × List Cmd) Byte Int Cmd (List Byte) Reply}
    (h : Reach (· = Link.start (Sysemu.init data1 data2) (g₀, []))
      (Link.Step sysemu (protocol guestApi init) (Quietly Busy)) s)
    {α : Type} {p : Prog LineOp LineOp.Answer α} {n : Nat} {tr : List (Event IoOp IoOp.Answer)}
    (hp : Issues (p.handle (uart n)) tr) (hc : List.Forall₂ Carries tr s.x.1.finished) :
    ∃ l l', Begins LineStep p (.start data1 data2) l ∧ Grows l l' ∧
      Serves s.x.1 s.host.dev l' := by
  obtain ⟨x, hrun, -, hdev⟩ := link_backed hg h
  obtain ⟨l, l', hl, hgrows, hx⟩ := (uart_implements n).begins .refl (reads_start h1 h2)
    ⟨tr, hp, path_cpu hc hrun⟩
  exact ⟨l, l', hl, hgrows, x, hx, hdev⟩

end LsePc.System
