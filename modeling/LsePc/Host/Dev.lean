/-
  File:      LsePc/Host/Dev.lean
  Subject:   dev.c and serial.c of the monitor: the devices it emulates.

  A port is looked up in the list of registered devices; the byte of an odd port travels in
  the upper half of the word. What the file descriptors of a serial port do is an input of
  the model, and every call of a handler is recorded.

  * `SerialData`, `serialRead`, `serialWrite`: the serial ports;
  * `Dev`, `com1Dev`, `com2Dev`: the devices, with their data;
  * `devRead`, `devWrite`: accesses to a port, with the handler calls they make;
  * `devRead_spec`, `devWrite_spec`: one call for a mapped port and none for another.
-/
import LsePc.Supervisor.Supervisor

namespace LsePc.Host

open LsePc.Bridge LsePc.Supervisor

/-! ## 1. Serial ports -/

def queueSize : Nat := 512

/-- `struct serial_data`; `output` is what has gone to `output_fd`. -/
structure SerialData where
  queueSize : Nat
  cursor : Nat
  queue : List Byte
  output : List Byte
  deriving Repr

def thrReady : Word := 1 <<< 5
def dataAvl : Word := 1

/-- An empty queue is filled from `input_fd`; `fd` is what its read delivers, nothing where it
    fails or would block. -/
def SerialData.fill (data : SerialData) (fd : List Byte) : SerialData :=
  let got := fd.take Host.queueSize
  if data.queueSize = 0 ∧ got ≠ [] then
    { data with
      queueSize := got.length
      cursor := 0
      queue := got ++ data.queue.drop got.length }
  else data

def serialRead (data : SerialData) (fd : List Byte) (offset : Word) : Word × SerialData :=
  let data := data.fill fd
  match offset.toNat with
  | 0 =>
    if data.queueSize ≠ 0 then
      ((data.queue.getD data.cursor 0).setWidth 16,
        { data with cursor := data.cursor + 1, queueSize := data.queueSize - 1 })
    else (0, data)
  | 5 => (if data.queueSize > 0 then thrReady ||| dataAvl else thrReady, data)
  | _ => (0, data)

def serialWrite (data : SerialData) (offset value : Word) : SerialData :=
  match offset.toNat with
  | 0 => { data with output := data.output ++ [value.setWidth 8] }
  | _ => data

/-! ## 2. Devices -/

/-- `struct dev`. -/
structure Dev where
  ioaddr : Word
  size : Word
  read : SerialData → List Byte → Word → Word × SerialData
  write : SerialData → Word → Word → SerialData
  data : SerialData

def com1Dev (data : SerialData) : Dev := ⟨0x3f8, 8, serialRead, serialWrite, data⟩

def com2Dev (data : SerialData) : Dev := ⟨0x2f8, 8, serialRead, serialWrite, data⟩

/-- A call of a handler of the device at `base`. -/
inductive Handled where
  | read (base offset value : Word)
  | write (base offset value : Word)
  deriving DecidableEq, Repr

/-- The window test of `find_dev`; C computes it in `int`. -/
def Dev.covers (d : Dev) (ioaddr : Word) : Bool :=
  decide (d.ioaddr.toNat ≤ ioaddr.toNat ∧ ioaddr.toNat < d.ioaddr.toNat + d.size.toNat)

/-- The byte of an odd port, on its way to the CPU. -/
def laneIn (ioaddr iodata : Word) : Word :=
  if ioaddr &&& 1 ≠ 0 then (iodata <<< 8) &&& 0xFF00 else iodata

/-- The byte of an odd port, on its way from the CPU. -/
def laneOut (ioaddr iodata : Word) : Word :=
  if ioaddr &&& 1 ≠ 0 then (iodata >>> 8) &&& 0xFF else iodata

/-- `find_dev` and the call of a handler: the devices with the one that is found updated, and
    what its handler returned. -/
def withDev {α : Type} (f : Dev → α × SerialData) (ioaddr : Word) :
    List Dev → Option (α × List Dev)
  | [] => none
  | d :: ds =>
    if d.covers ioaddr then some ((f d).1, { d with data := (f d).2 } :: ds)
    else (withDev f ioaddr ds).map fun r => (r.1, d :: r.2)

/-- `dev_read`: the word for the CPU, 0 where no device has the port. -/
def devRead (ds : List Dev) (ioaddr : Word) (fd : List Byte) : Word × List Dev × List Handled :=
  match withDev (fun d =>
      let offset := ioaddr - d.ioaddr
      let r := d.read d.data fd offset
      ((r.1, Handled.read d.ioaddr offset r.1), r.2)) ioaddr ds with
  | none => (0, ds, [])
  | some ((iodata, call), ds) => (laneIn ioaddr iodata, ds, [call])

def devWrite (ds : List Dev) (ioaddr iodata : Word) : List Dev × List Handled :=
  match withDev (fun d =>
      let offset := ioaddr - d.ioaddr
      let value := laneOut ioaddr iodata
      (Handled.write d.ioaddr offset value, d.write d.data offset value)) ioaddr ds with
  | none => (ds, [])
  | some (call, ds) => (ds, [call])

/-- `dev_register`. -/
def devRegister (ds : List Dev) (d : Dev) : List Dev := d :: ds

/-! ## 3. One call for a mapped port -/

/-- The base of the device that has a port. -/
def window (ds : List Dev) (ioaddr : Word) : Option Word :=
  (ds.find? fun d => d.covers ioaddr).map Dev.ioaddr

section Windows

variable {α : Type} {f : Dev → α × SerialData} {ioaddr : Word} {ds ds' : List Dev} {x : α}

theorem withDev_none (h : withDev f ioaddr ds = none) : window ds ioaddr = none := by
  induction ds with
  | nil => rfl
  | cons d ds ih =>
    by_cases hc : d.covers ioaddr
    · simp [withDev, hc] at h
    · simp only [withDev, if_neg hc, Option.map_eq_none_iff] at h
      simpa [window, hc] using ih h

/-- The device that is found is the one the port belongs to, and no window moves. -/
theorem withDev_some (h : withDev f ioaddr ds = some (x, ds')) :
    (∃ d, window ds ioaddr = some d.ioaddr ∧ x = (f d).1) ∧ window ds' = window ds := by
  induction ds generalizing ds' with
  | nil => simp [withDev] at h
  | cons d ds ih =>
    by_cases hc : d.covers ioaddr
    · simp only [withDev, if_pos hc, Option.some.injEq, Prod.mk.injEq] at h
      obtain ⟨rfl, rfl⟩ := h
      refine ⟨⟨d, by simp [window, hc], rfl⟩, funext fun p => ?_⟩
      have hsame : Dev.covers { d with data := (f d).2 } p = d.covers p := rfl
      by_cases hp : d.covers p <;> simp [window, hsame, hp]
    · simp only [withDev, if_neg hc, Option.map_eq_some_iff] at h
      obtain ⟨⟨x', ds₁⟩, hr, heq⟩ := h
      obtain ⟨rfl, rfl⟩ := Prod.mk.inj heq
      obtain ⟨⟨d', hw, hx⟩, hds⟩ := ih hr
      refine ⟨⟨d', by simpa [window, hc] using hw, hx⟩, funext fun p => ?_⟩
      have hwin := congrFun hds p
      simp only [window] at hwin ⊢
      by_cases hp : d.covers p
      · simp [hp]
      · simpa [hp] using hwin

end Windows

/-- What serving an IN makes of the handlers and the word. -/
def ServedIn (w : Option Word) (ioaddr iodata : Word) (calls : List Handled) : Prop :=
  match w with
  | none => calls = [] ∧ iodata = 0
  | some base => ∃ v, calls = [.read base (ioaddr - base) v] ∧ iodata = laneIn ioaddr v

def ServedOut (w : Option Word) (ioaddr iodata : Word) (calls : List Handled) : Prop :=
  match w with
  | none => calls = []
  | some base => calls = [.write base (ioaddr - base) (laneOut ioaddr iodata)]

/-- **A read of a port is one call of the read handler of its device**, which the word comes
    from; where there is no device it is 0. -/
theorem devRead_spec (ds : List Dev) (ioaddr : Word) (fd : List Byte) :
    ServedIn (window ds ioaddr) ioaddr (devRead ds ioaddr fd).1 (devRead ds ioaddr fd).2.2 ∧
      window (devRead ds ioaddr fd).2.1 = window ds := by
  rw [devRead]
  cases hw : withDev (fun d =>
      let offset := ioaddr - d.ioaddr
      let r := d.read d.data fd offset
      ((r.1, Handled.read d.ioaddr offset r.1), r.2)) ioaddr ds with
  | none =>
    rw [withDev_none hw]
    exact ⟨⟨rfl, rfl⟩, rfl⟩
  | some r =>
    obtain ⟨⟨iodata, call⟩, ds'⟩ := r
    obtain ⟨⟨d, hwin, hx⟩, hds⟩ := withDev_some hw
    obtain ⟨rfl, rfl⟩ := Prod.mk.inj hx
    rw [hwin]
    exact ⟨⟨_, rfl, rfl⟩, hds⟩

/-- **A write of a port is one call of the write handler of its device.** -/
theorem devWrite_spec (ds : List Dev) (ioaddr iodata : Word) :
    ServedOut (window ds ioaddr) ioaddr iodata (devWrite ds ioaddr iodata).2 ∧
      window (devWrite ds ioaddr iodata).1 = window ds := by
  rw [devWrite]
  cases hw : withDev (fun d =>
      let offset := ioaddr - d.ioaddr
      let value := laneOut ioaddr iodata
      (Handled.write d.ioaddr offset value, d.write d.data offset value)) ioaddr ds with
  | none =>
    rw [withDev_none hw]
    exact ⟨rfl, rfl⟩
  | some r =>
    obtain ⟨call, ds'⟩ := r
    obtain ⟨⟨d, hwin, rfl⟩, hds⟩ := withDev_some hw
    rw [hwin]
    exact ⟨rfl, hds⟩

end LsePc.Host
