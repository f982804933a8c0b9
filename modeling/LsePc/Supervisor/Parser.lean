/-
  File:      LsePc/Supervisor/Parser.lean
  Subject:   proto.c as a machine that takes a byte at a time.

  Between two bytes `proto_handle` waits in one of a few places, and the next byte moves it on
  or ends the call: with NAK, with SYN ACK or with a callback.

  * `Parser`: where it waits; `Parser.step`: what it makes of a byte;
  * `Parser.prog`: what is left of `proto_handle` there; `prog_eq`: it does what `step` says;
  * `Parser.after`: the callbacks run on some bytes and where it waits then;
  * `runs_iff`: these are the runs of `proto_handle` in the main loop;
  * `after_frame`, `quiet_damaged`: a frame, and a frame that has lost a byte;
  * `syn_step`: a SYN inside a frame.
-/
import LsePc.Supervisor.Proto

namespace LsePc.Supervisor

open LsePc.Lib LsePc.Bridge

/-! ## 1. The machine -/

/-- `args` waits for `left` more arguments and EOT. -/
inductive Parser where
  | top
  | soh
  | cmd
  | stx (cmd : Byte)
  | args (pcmd : ProtoCmd) (got : List Byte) (left : Nat)

inductive Reaction where
  | goes (p : Parser)
  | nak
  | synAck
  | runs (c : Cmd)

namespace Parser

def step : Parser → Byte → Reaction
  | top, b => if b = protoEnq then .goes soh else if b = protoSynByte then .synAck else .nak
  | soh, b => if b = protoSoh then .goes cmd else .nak
  | cmd, b => .goes (stx b)
  | stx c, b =>
    if b = protoStx then
      match protoCmds.find? fun pcmd => pcmd.cmd = c with
      | none => .nak
      | some pcmd => .goes (args pcmd [] (min pcmd.argSize protoCmdSize))
    else .nak
  | args pcmd got 0, b => if b = protoEot then .runs (pcmd.callback got) else .nak
  | args pcmd got (n + 1), b => .goes (args pcmd (got ++ [b]) n)

/-- The end of `proto_recv`, with the arguments still to come. -/
def recvArgs (pcmd : ProtoCmd) (got : List Byte) (left : Nat) : Uart Nat := do
  let rest ← Server.gets left
  if (← altGetchar) ≠ protoEot then return 1
  let buff ← Server.call (pcmd.callback (got ++ rest)) .ret
  protoAck buff
  return 0

def recvStx (cmd : Byte) : Uart Nat := do
  if (← altGetchar) ≠ protoStx then return 1
  match protoCmds.find? fun pcmd => pcmd.cmd = cmd with
  | none => return 1
  | some pcmd => recvArgs pcmd [] (min pcmd.argSize protoCmdSize)

/-- The end of `proto_handle` after ENQ. -/
def handled (p : Uart Nat) : Uart Unit := do
  if (← p) ≠ 0 then protoNack

/-- What is left of `proto_handle`. -/
def prog : Parser → Uart Unit
  | top => protoHandle
  | soh => handled protoRecv
  | cmd => handled (altGetchar.bind recvStx)
  | stx c => handled (recvStx c)
  | args pcmd got left => handled (recvArgs pcmd got left)

end Parser

namespace Reaction

/-- What `proto_handle` does after the byte. -/
def prog : Reaction → Uart Unit
  | goes p => p.prog
  | nak => protoNack
  | synAck => protoSyn
  | runs c => .call c protoAck

/-- Where it waits then. -/
def next : Reaction → Parser
  | goes p => p
  | _ => .top

/-- The callback it runs. -/
def calls : Reaction → List Cmd
  | runs c => [c]
  | _ => []

end Reaction

/-! ## 2. What `proto_handle` does -/

/-- **`proto_handle` takes a byte as the machine does.** -/
theorem prog_eq (p : Parser) : p.prog = .get fun b => (p.step b).prog := by
  cases p with
  | top =>
    refine congrArg Server.get (funext fun b => ?_)
    change (if b = protoEnq then _ else if b = protoSynByte then _ else _) =
      Reaction.prog (if b = protoEnq then _ else if b = protoSynByte then _ else _)
    split
    · rfl
    · split <;> rfl
  | soh =>
    refine congrArg Server.get (funext fun b => ?_)
    change Server.bind (if b ≠ protoSoh then _ else _) _ =
      Reaction.prog (if b = protoSoh then _ else _)
    by_cases h : b = protoSoh
    · rw [if_neg (not_not.mpr h), if_pos h]
      rfl
    · rw [if_pos h, if_neg h]
      rfl
  | cmd => rfl
  | stx c =>
    refine congrArg Server.get (funext fun b => ?_)
    change Server.bind (if b ≠ protoStx then _ else _) _ =
      Reaction.prog (if b = protoStx then _ else _)
    by_cases h : b = protoStx
    · rw [if_neg (not_not.mpr h), if_pos h]
      cases protoCmds.find? fun pcmd => pcmd.cmd = c <;> rfl
    · rw [if_pos h, if_neg h]
      rfl
  | args pcmd got left =>
    cases left with
    | zero =>
      refine congrArg Server.get (funext fun b => ?_)
      change Server.bind (if b ≠ protoEot then _ else _) _ =
        Reaction.prog (if b = protoEot then _ else _)
      by_cases h : b = protoEot
      · rw [if_neg (not_not.mpr h), if_pos h, List.append_nil]
        exact acked _ _ rfl
      · rw [if_pos h, if_neg h]
        rfl
    | succ n =>
      refine congrArg Server.get (funext fun b => ?_)
      -- the byte goes from the arguments to come to those that are there
      change Parser.handled (Server.bind ((Server.gets n).bind fun bs => .ret (b :: bs)) _) =
        Parser.handled (Parser.recvArgs pcmd (got ++ [b]) n)
      rw [Server.bind_assoc]
      refine congrArg Parser.handled (congrArg (Server.gets n).bind (funext fun rest => ?_))
      rw [List.append_assoc]
      rfl

namespace Parser

/-- The callbacks run on some bytes, and where `proto_handle` waits then. -/
def after : Parser → List Byte → List Cmd × Parser
  | p, [] => ([], p)
  | p, b :: bs =>
    let r := (p.step b).next.after bs
    ((p.step b).calls ++ r.1, r.2)

@[simp] theorem after_nil (p : Parser) : p.after [] = ([], p) := rfl

theorem after_cons (p : Parser) (b : Byte) (bs : List Byte) :
    p.after (b :: bs) =
      ((p.step b).calls ++ ((p.step b).next.after bs).1, ((p.step b).next.after bs).2) := rfl

theorem after_append (p : Parser) (bs bs' : List Byte) :
    p.after (bs ++ bs') =
      ((p.after bs).1 ++ ((p.after bs).2.after bs').1, ((p.after bs).2.after bs').2) := by
  induction bs generalizing p with
  | nil => rfl
  | cons b bs ih => rw [List.cons_append, after_cons, after_cons, ih, List.append_assoc]

end Parser

/-- **The runs of `proto_handle` are those of the machine.** -/
theorem runs_iff (p : Parser) (bs : List Byte) (cs : List Cmd) :
    Server.Runs protoHandle p.prog bs cs ↔ cs = (p.after bs).1 := by
  induction bs generalizing p cs with
  | nil =>
    rw [prog_eq]
    exact Server.runs_wait
  | cons b bs ih =>
    rw [prog_eq, Server.runs_get, Parser.after_cons]
    cases p.step b with
    | goes p' => exact ih p' cs
    | nak | synAck => exact Server.runs_puts.trans (ih .top cs)
    | runs c =>
      refine Server.runs_call.trans ?_
      constructor
      · intro h
        obtain ⟨d, cs', rfl, h⟩ := h
        rw [(ih .top cs').mp (Server.runs_puts.mp h)]
        rfl
      · intro h
        exact ⟨[], _, h, Server.runs_puts.mpr ((ih .top _).mpr rfl)⟩

/-! ## 3. Frames -/

/-- **A frame runs its command.** -/
theorem after_frame (c : Cmd) : Parser.top.after (frame c) = ([c], .top) := by
  cases c with
  | setIoData data =>
    have h : Parser.top.after (frame (.setIoData data)) =
        ([.setIoData (argWord (le16 data))], .top) := rfl
    rwa [argWord_le16] at h
  | getVersion | echo | start | stop | brk | cont | getStatus | getRegs | getIoData
  | getIoAddr => rfl

/-- The commands that change what the CPU does. -/
def Cmd.changes : Cmd → Bool
  | .start | .stop | .brk | .cont | .setIoData _ => true
  | .getVersion | .echo _ | .getStatus | .getRegs | .getIoData | .getIoAddr => false

namespace Parser

/-- At the top, or where neither SYN nor ENQ is what is waited for. -/
def settled : Parser → Bool
  | top | soh | stx _ | args _ _ 0 => true
  | cmd | args _ _ (_ + 1) => false

theorem settled_step {p : Parser} (h : p.settled) (htop : p ≠ top) :
    p.step protoSynByte = .nak ∧ p.step protoEnq = .nak := by
  cases p with
  | top => exact absurd rfl htop
  | soh | stx => exact ⟨rfl, rfl⟩
  | cmd => cases h
  | args pcmd got left =>
    cases left with
    | zero => exact ⟨rfl, rfl⟩
    | succ n => cases h

/-- The bytes run no command that changes anything, and a SYN or ENQ after them leads to the
    top. -/
def Quiet (p : Parser) (bs : List Byte) : Prop :=
  (p.after bs).1.filter Cmd.changes = [] ∧ (p.after bs).2.settled

/-- At the top a byte runs nothing. -/
theorem top_step (b : Byte) : (top.step b).calls = [] ∧
    ((top.step b).next = soh ∨ (top.step b).next = top) := by
  change Reaction.calls (if b = protoEnq then _ else if b = protoSynByte then _ else _) = [] ∧
    (Reaction.next (if b = protoEnq then _ else if b = protoSynByte then _ else _) = soh ∨
      Reaction.next (if b = protoEnq then _ else if b = protoSynByte then _ else _) = top)
  split
  · exact ⟨rfl, .inl rfl⟩
  · split <;> exact ⟨rfl, .inr rfl⟩

theorem quiet_top {b : Byte} {bs : List Byte} (hsoh : Quiet soh bs) (htop : Quiet top bs) :
    Quiet top (b :: bs) := by
  obtain ⟨hcalls, hnext⟩ := top_step b
  rw [Quiet, after_cons, hcalls, List.nil_append]
  rcases hnext with hnext | hnext
  · rw [hnext]
    exact hsoh
  · rw [hnext]
    exact htop

theorem quiet_stx {c b : Byte} {bs : List Byte} (htop : Quiet top bs)
    (hstx : b = protoStx → Quiet (stx c) (protoStx :: bs)) : Quiet (stx c) (b :: bs) := by
  by_cases h : b = protoStx
  · rw [h]
    exact hstx h
  · have hstep : (stx c).step b = .nak := if_neg h
    rw [Quiet, after_cons, hstep]
    exact htop

/-- The last bytes of a frame that does not begin. -/
theorem quiet_tail (b : Byte) : Quiet top [b, protoEot] := quiet_top ⟨rfl, rfl⟩ ⟨rfl, rfl⟩

theorem quiet_tail₂ (a b : Byte) : Quiet top [a, b, protoEot] := by
  refine quiet_top ?_ (quiet_tail b)
  by_cases h : b = protoSoh
  · rw [h]
    exact ⟨rfl, rfl⟩
  · have hstep : soh.step b = .nak := if_neg h
    rw [Quiet, after_cons, hstep]
    exact ⟨rfl, rfl⟩

/-- **A frame that has lost a byte changes nothing.** -/
theorem quiet_damaged {c : Cmd} (hecho : ∀ arg, c ≠ .echo arg) {i : Nat}
    (hi : i < (frame c).length) : Quiet top ((frame c).eraseIdx i) := by
  cases c with
  | echo arg => exact absurd rfl (hecho arg)
  | setIoData data =>
    change Quiet top ([protoEnq, protoSoh, 9, protoStx, data.setWidth 8,
      (data >>> 8).setWidth 8, protoEot].eraseIdx i)
    generalize data.setWidth 8 = a
    generalize (data >>> 8).setWidth 8 = b
    match i, hi with
    | 0, _ | 1, _ => exact quiet_tail₂ a b
    | 2, _ => exact quiet_stx (quiet_tail b) fun _ => ⟨rfl, rfl⟩
    | 3, _ => exact quiet_stx (quiet_tail b) fun _ => ⟨rfl, rfl⟩
    | 4, _ | 5, _ | 6, _ => exact ⟨rfl, rfl⟩
  | getVersion | start | stop | brk | cont | getStatus | getRegs | getIoData | getIoAddr =>
    match i, hi with
    | 0, _ | 1, _ | 2, _ | 3, _ | 4, _ => exact ⟨rfl, rfl⟩

end Parser

/-! ## 4. SYN bytes -/

/-- The bytes put in answer. -/
def Reaction.answer : Reaction → List Byte
  | .nak => [protoNak]
  | .synAck => [protoSynByte, protoAckByte]
  | .goes _ | .runs _ => []

namespace Parser

/-- The bytes of a command or its arguments that are taken before anything is answered. -/
def left : Parser → Nat
  | top | soh | stx _ => 0
  | cmd => 1
  | args _ _ n => n

/-- **A SYN inside a frame** is taken for a byte of it, or leads to the top. -/
theorem syn_step {p : Parser} (h : p ≠ top) :
    (p.left = 0 ∧ p.step protoSynByte = .nak) ∨
      ∃ p', p.step protoSynByte = .goes p' ∧ p' ≠ top ∧ p.left = p'.left + 1 := by
  cases p with
  | top => exact absurd rfl h
  | soh | stx => exact .inl ⟨rfl, rfl⟩
  | cmd => exact .inr ⟨stx protoSynByte, rfl, nofun, rfl⟩
  | args pcmd got n =>
    cases n with
    | zero => exact .inl ⟨rfl, rfl⟩
    | succ n => exact .inr ⟨args pcmd (got ++ [protoSynByte]) n, rfl, nofun, rfl⟩

/-- `proto_handle` while it waits: at the top the main loop has yet to call it. -/
def waits : Parser → Uart Unit
  | top => .ret ()
  | p => p.prog

theorem waits_eq {p : Parser} (h : p ≠ top) : p.waits = p.prog := by
  cases p with
  | top => exact absurd rfl h
  | soh | cmd | stx | args => rfl

theorem waits_eq_ret {p : Parser} (h : p.waits = .ret ()) : p = top := by
  by_contra htop
  rw [waits_eq htop, prog_eq] at h
  cases h

end Parser

end LsePc.Supervisor
