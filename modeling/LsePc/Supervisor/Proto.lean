/-
  File:      LsePc/Supervisor/Proto.lean
  Subject:   proto.c byte by byte.

  `proto_handle` takes a byte from the UART, and for ENQ a command with its arguments; it
  answers SYN by SYN ACK, a command by the acknowledgement of its callback and everything
  else by NAK.

  * `protoCmds`, `protoRecv`, `protoHandle`: the functions of proto.c;
  * `frame`: the bytes of a command;
  * `handle_syn`, `handle_frame`: what they are answered by.
-/
import LsePc.Lib.Stream
import LsePc.Supervisor.Callbacks

namespace LsePc.Supervisor

open LsePc.Lib LsePc.Bridge

/-! ## 1. proto.c -/

def protoCmdSize : Nat := 32

def protoSoh : Byte := 0x01
def protoStx : Byte := 0x02
def protoEot : Byte := 0x04
def protoEnq : Byte := 0x05
def protoAckByte : Byte := 0x06
def protoNak : Byte := 0x15
def protoSynByte : Byte := 0x16

/-- A function that works on the UART and calls callbacks. -/
abbrev Uart (α : Type) := Server Byte Cmd (List Byte) α

def altGetchar : Uart Byte := .get .ret

def protoNack : Uart Unit := .puts [protoNak]

/-- The bytes `proto_ack` puts, for the `size` bytes of `buff`. -/
def ackBytes (buff : List Byte) : List Byte :=
  let size : Byte := BitVec.ofNat 8 buff.length
  [protoAckByte, size, protoStx] ++ buff.take size.toNat ++ [protoEot]

def protoAck (buff : List Byte) : Uart Unit := .puts (ackBytes buff)

def protoSyn : Uart Unit := .puts [protoSynByte, protoAckByte]

/-- `struct proto_cmd`; the callback on its arguments. -/
structure ProtoCmd where
  cmd : Byte
  argSize : Nat
  callback : List Byte → Cmd

/-- `args[0] | (args[1] << 8)`. -/
def argWord (args : List Byte) : Word :=
  (args.getD 0 0).setWidth 16 ||| (args.getD 1 0).setWidth 16 <<< 8

/-- `proto_cmds`, without the entry that ends it. -/
def protoCmds : List ProtoCmd := [
  ⟨1, 0, fun _ => .getVersion⟩,
  ⟨2, 1, fun args => .echo (args.getD 0 0)⟩,
  ⟨3, 0, fun _ => .start⟩,
  ⟨4, 0, fun _ => .stop⟩,
  ⟨5, 0, fun _ => .brk⟩,
  ⟨6, 0, fun _ => .cont⟩,
  ⟨7, 0, fun _ => .getStatus⟩,
  ⟨8, 0, fun _ => .getRegs⟩,
  ⟨9, 2, fun args => .setIoData (argWord args)⟩,
  ⟨10, 0, fun _ => .getIoData⟩,
  ⟨11, 0, fun _ => .getIoAddr⟩]

def protoRecv : Uart Nat := do
  if (← altGetchar) ≠ protoSoh then return 1
  let cmd ← altGetchar
  if (← altGetchar) ≠ protoStx then return 1
  match protoCmds.find? fun pcmd => pcmd.cmd = cmd with
  | none => return 1
  | some pcmd => do
    let args ← Server.gets (min pcmd.argSize protoCmdSize)
    if (← altGetchar) ≠ protoEot then return 1
    let buff ← Server.call (pcmd.callback args) .ret
    protoAck buff
    return 0

def protoHandle : Uart Unit := do
  let c ← altGetchar
  if c = protoEnq then do
    if (← protoRecv) ≠ 0 then protoNack
  else if c = protoSynByte then protoSyn
  else protoNack

/-! ## 2. Commands on the wire -/

/-- The code of a command and its arguments. -/
def Cmd.code : Cmd → Byte
  | .getVersion => 1
  | .echo _ => 2
  | .start => 3
  | .stop => 4
  | .brk => 5
  | .cont => 6
  | .getStatus => 7
  | .getRegs => 8
  | .setIoData _ => 9
  | .getIoData => 10
  | .getIoAddr => 11

def Cmd.args : Cmd → List Byte
  | .echo arg => [arg]
  | .setIoData data => le16 data
  | _ => []

def frame (c : Cmd) : List Byte :=
  [protoEnq, protoSoh, c.code, protoStx] ++ c.args ++ [protoEot]

theorem argWord_le16 (w : Word) : argWord (le16 w) = w := by
  ext i hi
  simp only [argWord, le16, List.getD_cons_zero, List.getD_cons_succ, BitVec.getElem_or,
    BitVec.getElem_setWidth, BitVec.getElem_shiftLeft, BitVec.getLsbD_setWidth]
  by_cases h : i < 8
  · simp [h, BitVec.getLsbD_eq_getElem hi]
  · simp [h, BitVec.getLsbD_eq_getElem hi]
    grind

/-- `proto_handle` once the callback of a command has returned. -/
theorem acked (c : Cmd) (f : Nat → Uart Unit) (hf : f 0 = .ret ()) :
    (Server.call c fun d => ((protoAck d).bind fun _ => Server.ret 0).bind f) =
      Server.call c fun d => Server.puts (ackBytes d) := by
  have hputs : ∀ bs : List Byte,
      ((Server.puts bs : Uart Unit).bind fun _ => Server.ret 0).bind f = .puts bs := by
    intro bs
    induction bs with
    | nil => exact hf
    | cons b bs ih => exact congrArg (Server.put b) ih
  exact congrArg (Server.call c) (funext fun d => hputs (ackBytes d))

theorem handle_syn :
    protoHandle.feed [protoSynByte] = some (.puts [protoSynByte, protoAckByte]) := rfl

/-- **A command runs its callback on the arguments sent**, and is answered by its
    acknowledgement. -/
theorem handle_frame (c : Cmd) :
    protoHandle.feed (frame c) = some (.call c fun d => .puts (ackBytes d)) := by
  cases c with
  | setIoData data =>
    have h : protoHandle.feed (frame (.setIoData data)) =
        some (.call (.setIoData (argWord (le16 data))) fun d => .puts (ackBytes d)) :=
      congrArg some (acked _ _ rfl)
    rwa [argWord_le16] at h
  | getVersion | echo | start | stop | brk | cont | getStatus | getRegs | getIoData
  | getIoAddr => exact congrArg some (acked _ _ rfl)

end LsePc.Supervisor
