/-
  File:      LsePc/Host/Lsepc.lean
  Subject:   lsepc.c: the host's end of the link.

  A call synchronises with the supervisor, writes a command and reads the response piece by
  piece. A read that fails ends the call with its error; on a clean link none does.

  * `lsepcRead`, `lsepcSync`, `lsepcSendCmd`, `lsepcRecvResp`, `lsepcSingleCmd`: the
    functions the commands are built of;
  * `Call`, `Call.client`: the functions `lsepc_get_version` to `lsepc_get_io_addr`;
  * `LsepcRegs.ofBytes`: the `struct lsepc_regs` a response is read into.
-/
import LsePc.Lib.Stream
import LsePc.Supervisor.Callbacks

namespace LsePc.Host

open LsePc.Lib LsePc.Bridge LsePc.Supervisor

/-! ## 1. The link -/

/-- A function that works on the device of the link. -/
abbrev Io (α : Type) := Client Byte Int α

def protoCmdSize : Nat := 32

def protoSoh : Byte := 0x01
def protoStx : Byte := 0x02
def protoEot : Byte := 0x04
def protoEnq : Byte := 0x05
def protoAck : Byte := 0x06
def protoNak : Byte := 0x15
def protoSyn : Byte := 0x16

def enosys : Int := 38
def etime : Int := 62
def ecomm : Int := 70
def ebadmsg : Int := 74
def emsgsize : Int := 90
def eremoteio : Int := 121
def ecanceled : Int := 125

def write (buff : List Byte) : Io Nat := .write buff .ret

/-- `lsepc_read`: the loop over `select` and `read` until `size` bytes are there. An error
    leaves the bytes that are there in the buffer. -/
def lsepcRead (size : Nat) : Io (Except (Int × List Byte) (List Byte)) := .read [] size .ret

/-- A buffer that held `old`, after `new` has been stored at its start. -/
def overwrite (old new : List Byte) : List Byte := new ++ old.drop new.length

def lsepcSync : Io Int := do
  if (← write [protoSyn]) ≠ 1 then return -ecomm
  match ← lsepcRead 2 with
  | .error (ret, _) => return ret
  | .ok synack =>
    if synack.getD 0 0 ≠ protoSyn ∨ synack.getD 1 0 ≠ protoAck then return -ebadmsg
    return 0

def syncFails : Nat := 3

/-- The loop of `lsepc_getsync`, with `n` tries left. -/
def lsepcGetsyncLoop : Nat → Io Int
  | 0 => return -eremoteio
  | n + 1 => do
    if (← lsepcSync) = 0 then return 0
    lsepcGetsyncLoop n

def lsepcGetsync : Io Int := lsepcGetsyncLoop syncFails

def lsepcSendCmd (cmd : Byte) (args : List Byte) : Io Int := do
  let buff := [protoEnq, protoSoh, cmd, protoStx] ++ args ++ [protoEot]
  if buff.length > protoCmdSize then return -emsgsize
  if (← lsepcGetsync) ≠ 0 then return -eremoteio
  if (← write buff) ≠ buff.length then return -ecomm
  return 0

/-- With the return value, what `resp` holds, which held `init`. -/
def lsepcRecvResp (init : List Byte) (size : Nat) : Io (Int × List Byte) := do
  match ← lsepcRead 1 with
  | .error (ret, _) => return (ret, init)
  | .ok ack =>
    if ack.getD 0 0 = protoNak then return (-ecanceled, init)
    if ack.getD 0 0 ≠ protoAck then return (-ebadmsg, init)
    match ← lsepcRead 2 with
    | .error (ret, _) => return (ret, init)
    | .ok hdr =>
      if hdr.getD 1 0 ≠ protoStx then return (-ebadmsg, init)
      if (hdr.getD 0 0).toNat > size then return (-emsgsize, init)
      match ← lsepcRead (hdr.getD 0 0).toNat with
      | .error (ret, resp) => return (ret, overwrite init resp)
      | .ok resp =>
        match ← lsepcRead 1 with
        | .error (ret, _) => return (ret, overwrite init resp)
        | .ok ftr =>
          if ftr.getD 0 0 ≠ protoEot then return (-ebadmsg, overwrite init resp)
          return (0, overwrite init resp)

/-! ## 2. The commands -/

/-- The little-endian `uint16_t` at `i`. -/
def word16 (b : List Byte) (i : Nat) : Word :=
  (b.getD i 0).setWidth 16 ||| (b.getD (i + 1) 0).setWidth 16 <<< 8

def word32 (b : List Byte) (i : Nat) : BitVec 32 :=
  (word16 b i).setWidth 32 ||| (word16 b (i + 2)).setWidth 32 <<< 16

/-- `struct lsepc_regs`. -/
structure LsepcRegs where
  valid : Byte
  eflags : BitVec 32
  eip : BitVec 32
  eax : BitVec 32
  ecx : BitVec 32
  edx : BitVec 32
  ebx : BitVec 32
  esp : BitVec 32
  ebp : BitVec 32
  esi : BitVec 32
  edi : BitVec 32
  cs : Word
  deriving DecidableEq, Repr

def sizeofRegs : Nat := 43

/-- The packed structure as it lies in memory. -/
def LsepcRegs.ofBytes (b : List Byte) : LsepcRegs where
  valid := b.getD 0 0
  eflags := word32 b 1
  eip := word32 b 5
  eax := word32 b 9
  ecx := word32 b 13
  edx := word32 b 17
  ebx := word32 b 21
  esp := word32 b 25
  ebp := word32 b 29
  esi := word32 b 33
  edi := word32 b 37
  cs := word16 b 41

/-- What a call returns, with what it has stored through its pointer. -/
inductive Reply where
  | ret (ret : Int)
  | version (ret : Int) (version : List Byte)
  | regs (ret : Int) (regs : LsepcRegs)
  deriving DecidableEq, Repr

/-- The calls; the buffer of `lsepc_get_version` is as large as the version string. -/
inductive Call where
  | getVersion (size : Nat) (h : protoVersion.length ≤ size)
  | start
  | stop
  | brk
  | cont
  | getStatus
  | getRegs
  | setIoData (data : Word)
  | getIoData
  | getIoAddr

/-- The bytes stored in the caller's buffer, which nothing is read back from. -/
def lsepcGetVersion (size : Nat) : Io Reply := do
  let ret ← lsepcSendCmd 1 []
  if ret < 0 then return .version ret []
  let (ret, version) ← lsepcRecvResp [] size
  return .version ret version

def lsepcSingleCmd (init : List Byte) (cmd : Byte) : Io Reply := do
  let ret ← lsepcSendCmd cmd []
  if ret < 0 then return .ret ret
  let (ret, cmdRet) ← lsepcRecvResp init 1
  if ret ≠ 0 then return .ret ret
  if cmdRet.getD 0 0 ≠ 0 then return .ret (-enosys)
  return .ret 0

def lsepcGetRegs (init : List Byte) : Io Reply := do
  let ret ← lsepcSendCmd 8 []
  if ret < 0 then return .regs ret (.ofBytes init)
  let (ret, regs) ← lsepcRecvResp init sizeofRegs
  if ret ≠ 0 then return .regs ret (.ofBytes regs)
  return .regs (LsepcRegs.ofBytes regs).valid.toNat (.ofBytes regs)

def lsepcGetStatus (init : List Byte) : Io Reply := do
  let ret ← lsepcSendCmd 7 []
  if ret < 0 then return .ret ret
  let (ret, status) ← lsepcRecvResp init 1
  if ret ≠ 0 then return .ret ret
  return .ret (status.getD 0 0).toNat

def lsepcSetIoData (init : List Byte) (data : Word) : Io Reply := do
  let ret ← lsepcSendCmd 9 [data.setWidth 8, (data >>> 8).setWidth 8]
  if ret < 0 then return .ret ret
  let (ret, resp) ← lsepcRecvResp init 2
  if ret < 0 then return .ret ret
  return .ret (if word16 resp 0 ≠ data then -eremoteio else 0)

/-- `lsepc_get_io_data` and `lsepc_get_io_addr`, which differ in the command. -/
def lsepcGetWord (init : List Byte) (cmd : Byte) : Io Reply := do
  let ret ← lsepcSendCmd cmd []
  if ret < 0 then return .ret ret
  let (ret, resp) ← lsepcRecvResp init 2
  if ret < 0 then return .ret ret
  return .ret (word16 resp 0).toNat

def lsepcGetIoData (init : List Byte) : Io Reply := lsepcGetWord init 10

def lsepcGetIoAddr (init : List Byte) : Io Reply := lsepcGetWord init 11

/-- The function of a call; `init` is what the variable of the response holds before it. -/
def Call.client (init : List Byte) : Call → Io Reply
  | .getVersion size _ => lsepcGetVersion size
  | .start => lsepcSingleCmd init 3
  | .stop => lsepcSingleCmd init 4
  | .brk => lsepcSingleCmd init 5
  | .cont => lsepcSingleCmd init 6
  | .getStatus => lsepcGetStatus init
  | .getRegs => lsepcGetRegs init
  | .setIoData data => lsepcSetIoData init data
  | .getIoData => lsepcGetIoData init
  | .getIoAddr => lsepcGetIoAddr init

end LsePc.Host
