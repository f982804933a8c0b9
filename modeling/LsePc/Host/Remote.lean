/-
  File:      LsePc/Host/Remote.lean
  Subject:   lsepc.c against proto.c: the remote API.

  Every call of the host is a SYN handshake and a command with its response, and each end
  takes the bytes the other one puts. So the link between the two programs does what the
  callbacks do when they are called directly.

  * `sendCmd_eq`, `recvResp_feed`: what lsepc.c puts and takes;
  * `client_calls`: every call is answered by its callback;
  * `direct`: a call made on the supervisor itself; `serve_eq_direct`: the same through
    the bytes of the response;
  * `Session`, `remote_api`: runs of the two programs on a clean link.
-/
import LsePc.Host.Lsepc
import LsePc.Lib.Link
import LsePc.Supervisor.Proto

namespace LsePc.Host

open LsePc.Lib LsePc.Bridge LsePc.Supervisor

/-! ## 1. What the host puts and takes -/

/-- `lsepc_sync` from its first write. -/
theorem lsepcSync_eq : lsepcSync = .write [protoSyn] fun n =>
    if n ≠ 1 then .ret (-ecomm) else .read [] 2 fun
      | .error (ret, _) => .ret ret
      | .ok synack =>
        if synack.getD 0 0 ≠ protoSyn ∨ synack.getD 1 0 ≠ protoAck then .ret (-ebadmsg)
        else .ret 0 := rfl

section Client

variable {α : Type}

theorem getsync_eq (g : Int → Io α) :
    ∃ k, lsepcGetsync.bind g = .write [protoSynByte] k ∧
      (k 1).feed [protoSynByte, protoAckByte] = some (g 0) := ⟨_, rfl, rfl⟩

/-- The handshake, and then the bytes of the command. -/
theorem sendCmd_eq (c : Cmd) (g : Int → Io α) :
    ∃ k k', (lsepcSendCmd c.code c.args).bind g = .write [protoSynByte] k ∧
      (k 1).feed [protoSynByte, protoAckByte] = some (.write (frame c) k') ∧
      k' (frame c).length = g 0 := by
  have hlen : ¬ (frame c).length > protoCmdSize := by
    have hargs : c.args.length ≤ 2 := by cases c <;> simp [Cmd.args, le16]
    simp only [frame, List.length_append, List.length_cons, List.length_nil, protoCmdSize]
    omega
  obtain ⟨k, hk, hfeed⟩ := getsync_eq fun a => Client.bind
    (if a ≠ 0 then .ret (-eremoteio) else (write (frame c)).bind fun n =>
      if n ≠ (frame c).length then .ret (-ecomm) else .ret 0) g
  refine ⟨k, _, ?_, hfeed, ?_⟩
  · rw [← hk, ← Client.bind_assoc]
    show Client.bind (if (frame c).length > protoCmdSize then _ else _) g = _
    rw [if_neg hlen]
    rfl
  · simp [Client.bind]

theorem lsepcRead_feed (size : Nat) (bs : List Byte) (hsize : bs.length = size) (hne : bs ≠ [])
    (rest : List Byte) (g : Except (Int × List Byte) (List Byte) → Io α) :
    ((lsepcRead size).bind g).feed (bs ++ rest) = (g (.ok bs)).feed rest :=
  Client.feed_block hsize hne rest

/-- The response `proto_ack` puts is taken to its last byte. -/
theorem recvResp_feed {init : List Byte} {size : Nat} {d : List Byte} (hne : d ≠ [])
    (hd : d.length ≤ size) (hbyte : d.length < 256) (g : Int × List Byte → Io α) :
    ((lsepcRecvResp init size).bind g).feed (ackBytes d) = some (g (0, overwrite init d)) := by
  have hsize : (BitVec.ofNat 8 d.length).toNat = d.length := by
    rw [BitVec.toNat_ofNat, Nat.mod_eq_of_lt hbyte]
  have hack : ackBytes d =
      [protoAck] ++ ([BitVec.ofNat 8 d.length, protoStx] ++ (d ++ ([protoEot] ++ []))) := by
    simp [ackBytes, hsize]
    decide
  have hnak : ¬ [protoAck].getD 0 0 = protoNak := by decide
  have hok : ¬ [protoAck].getD 0 0 ≠ protoAck := by decide
  have hstx : ¬ [BitVec.ofNat 8 d.length, protoStx].getD 1 0 ≠ protoStx := by simp
  have hcount : d.length = ([BitVec.ofNat 8 d.length, protoStx].getD 0 0).toNat := hsize.symm
  have hfit : ¬ ([BitVec.ofNat 8 d.length, protoStx].getD 0 0).toNat > size := by
    rw [← hcount]
    omega
  have heot : ¬ [protoEot].getD 0 0 ≠ protoEot := by decide
  rw [hack, lsepcRecvResp]
  simp only [Client.bind_eq, Client.pure_eq]
  rw [Client.bind_assoc, lsepcRead_feed 1 [protoAck] rfl (by simp)]
  simp only [if_neg hnak, if_neg hok]
  rw [Client.bind_assoc, lsepcRead_feed 2 [BitVec.ofNat 8 d.length, protoStx] rfl
    (by simp)]
  simp only [if_neg hstx, if_neg hfit]
  rw [Client.bind_assoc, lsepcRead_feed _ d hcount hne]
  dsimp only
  rw [Client.bind_assoc, lsepcRead_feed 1 [protoEot] rfl (by simp)]
  simp only [if_neg heot]
  rfl

end Client

/-! ## 2. Every call is answered by its callback -/

/-- The command of a call. -/
def Call.cmd : Call → Cmd
  | .getVersion _ _ => .getVersion
  | .start => .start
  | .stop => .stop
  | .brk => .brk
  | .cont => .cont
  | .getStatus => .getStatus
  | .getRegs => .getRegs
  | .setIoData data => .setIoData data
  | .getIoData => .getIoData
  | .getIoAddr => .getIoAddr

/-- What a call makes of the bytes of a response. -/
def Call.decode : Call → List Byte → Reply
  | .getVersion _ _, d => .version 0 d
  | .start, d | .stop, d | .brk, d | .cont, d =>
    .ret (if d.getD 0 0 ≠ 0 then -enosys else 0)
  | .getStatus, d => .ret (d.getD 0 0).toNat
  | .getRegs, d => .regs (LsepcRegs.ofBytes d).valid.toNat (.ofBytes d)
  | .setIoData data, d => .ret (if word16 d 0 ≠ data then -eremoteio else 0)
  | .getIoData, d | .getIoAddr, d => .ret (word16 d 0).toNat

/-- The size of the response to a command. -/
def replySize : Cmd → Nat
  | .getVersion => protoVersion.length
  | .echo _ => 1
  | .start => 1
  | .stop => 1
  | .brk => 1
  | .cont => 1
  | .getStatus => 1
  | .getRegs => sizeofRegs
  | .setIoData _ => 2
  | .getIoData => 2
  | .getIoAddr => 2

theorem replySize_bounds (c : Cmd) : 0 < replySize c ∧ replySize c ≤ 43 := by
  have hversion : protoVersion.length = 23 := rfl
  cases c <;> simp [replySize, sizeofRegs, hversion]

theorem bytes_length (r : SvRegs) : r.bytes.length = sizeofRegs := by
  simp [SvRegs.bytes, le32, le16, sizeofRegs]

theorem overwrite_nil (d : List Byte) : overwrite [] d = d := by
  rw [overwrite, List.drop_nil, List.append_nil]

theorem overwrite_getD {init d : List Byte} {i : Nat} (h : i < d.length) :
    (overwrite init d).getD i 0 = d.getD i 0 := by
  rw [overwrite, List.getD_eq_getElem?_getD, List.getElem?_append_left h,
    ← List.getD_eq_getElem?_getD]

theorem overwrite_word16 {init d : List Byte} {i : Nat} (h : i + 1 < d.length) :
    word16 (overwrite init d) i = word16 d i := by
  rw [word16, word16, overwrite_getD h, overwrite_getD (by omega)]

theorem overwrite_ofBytes {init d : List Byte} (h : d.length = sizeofRegs) :
    LsepcRegs.ofBytes (overwrite init d) = .ofBytes d := by
  have hword : ∀ i, i + 1 < 43 → word16 (overwrite init d) i = word16 d i :=
    fun i hi => overwrite_word16 (Nat.lt_of_lt_of_eq hi h.symm)
  have hfirst : (overwrite init d).getD 0 0 = d.getD 0 0 := overwrite_getD (by rw [h]; decide)
  simp (disch := omega) only [LsepcRegs.ofBytes, word32, hword, hfirst]

section Exchange

variable {σ : Type} (api : SvApi σ) (init : List Byte)

theorem callback_length (c : Cmd) (x : σ) : (api.callback c x).1.length = replySize c := by
  cases c with
  | getRegs => exact bytes_length _
  | getVersion | echo | start | stop | brk | cont | getStatus | setIoData | getIoData
  | getIoAddr => rfl

/-- The link between lsepc.c and proto.c, where the variables of lsepc.c hold `init`. -/
def protocol (init : List Byte) :
    Protocol (σ × List Cmd) Byte Int Call Cmd (List Byte) Reply where
  client := Call.client init
  body := protoHandle
  -- the callbacks that are run are recorded
  handler c x := ((api.callback c x.1).1, ((api.callback c x.1).2, x.2 ++ [c]))

/-- A call that sends a command and reads its response. -/
theorem exchange (c : Cmd) {size : Nat} (hsize : replySize c ≤ size) (f : List Byte → Reply)
    (g : Int → Io Reply) (g' : Int × List Byte → Io Reply)
    {init' : List Byte} (hg : g 0 = (lsepcRecvResp init' size).bind g')
    (hg' : ∀ d, d.length = replySize c → g' (0, overwrite init' d) = .ret (f d)) :
    ∃ n ≤ 112, Calls (protocol api init) c f n ((lsepcSendCmd c.code c.args).bind g) := by
  obtain ⟨k, k', hk, hsync, hg0⟩ := sendCmd_eq c g
  obtain ⟨hpos, hsmall⟩ := replySize_bounds c
  have hack : ∀ x, (ackBytes ((protocol api init).handler c x).1).length ≤ 47 := by
    intro x
    have hlen : ((protocol api init).handler c x).1.length = replySize c :=
      callback_length api c x.1
    simp only [ackBytes, List.length_append, List.length_take, List.length_cons, List.length_nil]
    omega
  have hframe : (frame c).length ≤ 7 := by cases c <;> simp [frame, Cmd.args, le16]
  have hcall : Calls (protocol api init) c f (2 * 47 + (frame c).length + 4)
      (.write (frame c) k') := by
    refine .call (by simp [frame]) (handle_frame c) (by simp [ackBytes]) hack fun x => ?_
    have hlen : ((protocol api init).handler c x).1.length = replySize c :=
      callback_length api c x.1
    rw [hg0, hg, recvResp_feed (List.ne_nil_of_length_pos (by omega)) (by omega) (by omega),
      hg' _ hlen]
  rw [hk]
  refine ⟨_, ?_, .ask (by simp) (by simp) handle_syn hsync hcall⟩
  simp only [List.length_cons, List.length_nil]
  omega

/-- The commands that answer with the return value of their function. -/
theorem single_decode {init' d : List Byte} (h : d.length = 1) :
    (if (0 : Int) ≠ 0 then Client.ret (Reply.ret 0)
      else if (overwrite init' d).getD 0 0 ≠ 0 then Client.ret (.ret (-enosys))
      else Client.ret (.ret 0) : Io Reply) =
    .ret (.ret (if d.getD 0 0 ≠ 0 then -enosys else 0)) := by
  rw [if_neg (by decide), overwrite_getD (by omega)]
  split <;> rfl

theorem client_calls (c : Call) :
    ∃ n ≤ 112, Calls (protocol api init) c.cmd c.decode n ((protocol api init).client c) := by
  cases c with
  | getVersion size h =>
    exact exchange api init .getVersion h _ _ _ rfl fun d _ =>
      congrArg (fun b : List Byte => Client.ret (Reply.version 0 b)) (overwrite_nil d)
  | start => exact exchange api init .start (Nat.le_refl _) _ _ _ rfl fun d hd => single_decode hd
  | stop => exact exchange api init .stop (Nat.le_refl _) _ _ _ rfl fun d hd => single_decode hd
  | brk => exact exchange api init .brk (Nat.le_refl _) _ _ _ rfl fun d hd => single_decode hd
  | cont => exact exchange api init .cont (Nat.le_refl _) _ _ _ rfl fun d hd => single_decode hd
  | getStatus =>
    exact exchange api init .getStatus (Nat.le_refl _) _ _ _ rfl fun d hd =>
      congrArg (fun b : Byte => Client.ret (Reply.ret b.toNat))
        (overwrite_getD (Nat.lt_of_lt_of_eq Nat.zero_lt_one hd.symm))
  | getRegs =>
    exact exchange api init .getRegs (Nat.le_refl _) _ _ _ rfl fun d hd =>
      congrArg (fun r : LsepcRegs => Client.ret (Reply.regs r.valid.toNat r)) (overwrite_ofBytes hd)
  | setIoData data =>
    exact exchange api init (.setIoData data) (Nat.le_refl _) _ _ _ rfl fun d hd =>
      congrArg (fun w : Word => Client.ret (Reply.ret (if w ≠ data then -eremoteio else 0)))
        (overwrite_word16 (Nat.lt_of_lt_of_eq Nat.one_lt_two hd.symm))
  | getIoData =>
    exact exchange api init .getIoData (Nat.le_refl _) _ _ _ rfl fun d hd =>
      congrArg (fun w : Word => Client.ret (Reply.ret w.toNat))
        (overwrite_word16 (Nat.lt_of_lt_of_eq Nat.one_lt_two hd.symm))
  | getIoAddr =>
    exact exchange api init .getIoAddr (Nat.le_refl _) _ _ _ rfl fun d hd =>
      congrArg (fun w : Word => Client.ret (Reply.ret w.toNat))
        (overwrite_word16 (Nat.lt_of_lt_of_eq Nat.one_lt_two hd.symm))

end Exchange

/-! ## 3. Calls made directly -/

/-- The fields of the register block, as the host has them. -/
def hostRegs (r : SvRegs) : LsepcRegs :=
  ⟨r.valid, r.eflags, r.eip, r.eax, r.ecx, r.edx, r.ebx, r.esp, r.ebp, r.esi, r.edi, r.cs⟩

/-- What a command returns for a function that returned `ret`. -/
def errno (ret : Nat) : Int := if ret = 0 then 0 else -enosys

section Direct

variable {σ : Type} (api : SvApi σ)

/-- **A call made on the supervisor itself**: its handler applied to the state, and the value
    the host is to get. -/
def direct : Call → σ → Reply × σ
  | .getVersion _ _, x => (.version 0 protoVersion, x)
  | .start, x => (.ret (errno (api.start x).1), (api.start x).2)
  | .stop, x => (.ret (errno (api.stop x).1), (api.stop x).2)
  | .brk, x => (.ret (errno (api.brk x).1), (api.brk x).2)
  | .cont, x => (.ret (errno (api.cont x).1), (api.cont x).2)
  | .getStatus, x => (.ret (api.sv x).status.code.toNat, x)
  | .getRegs, x =>
    let r := api.getRegs x
    let regs := { (api.sv r.2).regs with valid := BitVec.ofNat 8 r.1 }
    (.regs r.1 (hostRegs regs), api.setSv { api.sv r.2 with regs := regs } r.2)
  | .setIoData data, x => (.ret 0, api.setSv { api.sv x with iodata := data } x)
  | .getIoData, x => (.ret (api.sv x).iodata.toNat, x)
  | .getIoAddr, x => (.ret (api.sv x).ioaddr.toNat, x)

/-- The return values fit the `uint8_t` they are sent in. -/
structure Small : Prop where
  start : ∀ x, (api.start x).1 < 256
  stop : ∀ x, (api.stop x).1 < 256
  brk : ∀ x, (api.brk x).1 < 256
  cont : ∀ x, (api.cont x).1 < 256
  getRegs : ∀ x, (api.getRegs x).1 < 256

theorem join16 (w : Word) :
    (w.setWidth 8).setWidth 16 ||| ((w >>> 8).setWidth 8).setWidth 16 <<< 8 = w :=
  argWord_le16 w

theorem join32 (w : BitVec 32) :
    (w.setWidth 16).setWidth 32 ||| ((w >>> 16).setWidth 16).setWidth 32 <<< 16 = w := by
  ext i hi
  simp only [BitVec.getElem_or, BitVec.getElem_setWidth, BitVec.getElem_shiftLeft,
    BitVec.getLsbD_setWidth, BitVec.getLsbD_ushiftRight]
  by_cases h : i < 16
  · simp [h, BitVec.getLsbD_eq_getElem hi]
  · simp [h, BitVec.getLsbD_eq_getElem hi]
    grind

theorem word16_le16 (w : Word) : word16 (le16 w) 0 = w := join16 w

/-- The two packed `struct`s are laid out alike. -/
theorem ofBytes_bytes (r : SvRegs) : LsepcRegs.ofBytes r.bytes = hostRegs r := by
  simp only [LsepcRegs.ofBytes, SvRegs.bytes, le32, le16, word32, word16, List.cons_append,
    List.nil_append, List.getD_cons_succ, List.getD_cons_zero, join16, join32, hostRegs,
    Nat.reduceAdd]

theorem errno_byte {ret : Nat} (h : ret < 256) :
    (if (BitVec.ofNat 8 ret) ≠ 0 then -enosys else 0) = errno ret := by
  have hzero : BitVec.ofNat 8 ret = 0 ↔ ret = 0 := by
    rw [← BitVec.toNat_inj, BitVec.toNat_ofNat, Nat.mod_eq_of_lt h]
    rfl
  by_cases hret : ret = 0
  · rw [errno, if_pos hret, if_neg (not_not_intro (hzero.mpr hret))]
  · rw [errno, if_neg hret, if_pos (mt hzero.mp hret)]

/-- **The value through the link is the value of the handler.** -/
theorem serve_eq_direct {init : List Byte} (hsmall : Small api) (c : Call) (x : σ)
    (log : List Cmd) : (protocol api init).serve Call.cmd Call.decode c (x, log) =
      ((direct api c x).1, (direct api c x).2, log ++ [c.cmd]) := by
  have single : ∀ {r : Nat × σ}, r.1 < 256 →
      (if (SvApi.ret r).1.getD 0 0 ≠ 0 then -enosys else 0) = errno r.1 := errno_byte
  cases c with
  | getVersion => rfl
  | start => exact Prod.ext (congrArg Reply.ret (single (hsmall.start x))) rfl
  | stop => exact Prod.ext (congrArg Reply.ret (single (hsmall.stop x))) rfl
  | brk => exact Prod.ext (congrArg Reply.ret (single (hsmall.brk x))) rfl
  | cont => exact Prod.ext (congrArg Reply.ret (single (hsmall.cont x))) rfl
  | getStatus => rfl
  | getRegs =>
    have hvalid : (BitVec.ofNat 8 (api.getRegs x).1).toNat = (api.getRegs x).1 := by
      rw [BitVec.toNat_ofNat, Nat.mod_eq_of_lt (hsmall.getRegs x)]
    refine Prod.ext ?_ rfl
    show Reply.regs (LsepcRegs.ofBytes (api.cbGetRegs x).1).valid.toNat
      (.ofBytes (api.cbGetRegs x).1) = _
    rw [SvApi.cbGetRegs]
    dsimp only
    rw [ofBytes_bytes]
    exact congrArg (fun n : Nat => Reply.regs n _) hvalid
  | setIoData data =>
    refine Prod.ext (congrArg Reply.ret ?_) rfl
    exact if_neg (not_not_intro (word16_le16 data))
  | getIoData =>
    exact Prod.ext (congrArg (fun w : Word => Reply.ret w.toNat) (word16_le16 _)) rfl
  | getIoAddr =>
    exact Prod.ext (congrArg (fun w : Word => Reply.ret w.toNat) (word16_le16 _)) rfl

end Direct

/-- supervisor.c returns 0 or 1. -/
theorem machineApi_small : Small machineApi where
  start m := by
    show (svStart m).1 < 256
    rw [svStart]
    split <;> simp
  stop m := by
    obtain ⟨τ, -, h⟩ := svStop_eq m
    simp only [machineApi, h, Option.get_some]
    decide
  brk m := by
    by_cases hs : m.sv.status = .running
    · obtain ⟨τ, -, h⟩ := svBrk_eq m hs
      simp only [machineApi, h, Option.get_some]
      decide
    · simp only [machineApi, svBrk, if_neg hs, Option.get_some]
      decide
  cont m := by
    show (svCont m).1 < 256
    rw [svCont]
    split <;> simp
  getRegs m := by
    by_cases hs : m.sv.status = .brk32
    · obtain ⟨τ, τ', w, -, -, -, h⟩ := svGetRegs_eq m hs
      simp only [machineApi, h, Option.get_some]
      decide
    · simp only [machineApi, svGetRegs, if_neg hs, Option.get_some]
      decide

/-! ## 4. Runs on a clean link -/

/-- A host that makes a list of calls and keeps the replies. -/
structure Script where
  todo : List Call
  replies : List Reply

def script : Caller Script Call Reply where
  ask h := h.todo.head?
  tell h r h' := h' = ⟨h.todo.tail, h.replies ++ [r]⟩

/-- What the supervisor does besides handling commands records none. -/
inductive Quietly {σ : Type} (bg : σ → σ → Prop) : σ × List Cmd → σ × List Cmd → Prop where
  | mk {x y : σ} {log : List Cmd} (h : bg x y) : Quietly bg (x, log) (y, log)

section Runs

variable {σ : Type} {api : SvApi σ} {init : List Byte} {bg : σ → σ → Prop} {x₀ : σ}
  {calls : List Call}

/-- **Calls made directly**, one after the other, with their replies and the state they
    leave; between them the supervisor may be busy with other things. -/
inductive Session (api : SvApi σ) (bg : σ → σ → Prop) (x₀ : σ) :
    List Call → List Reply → σ → Prop where
  | start : Session api bg x₀ [] [] x₀
  | background {cs : List Call} {rs : List Reply} {x y : σ} (h : Session api bg x₀ cs rs x)
      (hbg : bg x y) : Session api bg x₀ cs rs y
  | call {cs : List Call} {rs : List Reply} {x : σ} (c : Call) (h : Session api bg x₀ cs rs x) :
      Session api bg x₀ (cs ++ [c]) (rs ++ [(direct api c x).1]) (direct api c x).2

/-- Where a script stands. -/
inductive Scripted (api : SvApi σ) (bg : σ → σ → Prop) (x₀ : σ) (calls : List Call) :
    Rpc Script (σ × List Cmd) Call Reply → Prop where
  | idle {done todo : List Call} {rs : List Reply} {x : σ} (hcalls : calls = done ++ todo)
      (h : Session api bg x₀ done rs x) :
      Scripted api bg x₀ calls ⟨⟨todo, rs⟩, .idle, x, done.map Call.cmd⟩
  | posted {done todo : List Call} {rs : List Reply} {x : σ} {c : Call}
      (hcalls : calls = done ++ c :: todo) (h : Session api bg x₀ done rs x) :
      Scripted api bg x₀ calls ⟨⟨c :: todo, rs⟩, .posted c, x, done.map Call.cmd⟩
  | answered {done todo : List Call} {rs : List Reply} {x : σ} {c : Call} {r : Reply}
      (hcalls : calls = done ++ c :: todo)
      (h : Session api bg x₀ (done ++ [c]) (rs ++ [r]) x) :
      Scripted api bg x₀ calls
        ⟨⟨c :: todo, rs⟩, .answered r, x, (done ++ [c]).map Call.cmd⟩

theorem scripted_step (hsmall : Small api) {a b : Rpc Script (σ × List Cmd) Call Reply}
    {i : Rpc.Action} (h : Scripted api bg x₀ calls a)
    (hs : Rpc.Step script ((protocol api init).serve Call.cmd Call.decode) (Quietly bg) a i b) :
    Scripted api bg x₀ calls b := by
  cases h with
  | idle hcalls h =>
    cases hs with
    | post hask =>
      obtain ⟨rest, rfl⟩ := List.head?_eq_some_iff.mp hask
      exact .posted hcalls h
    | background hbg =>
      obtain ⟨hxy⟩ := hbg
      exact .idle hcalls (h.background hxy)
  | posted hcalls h =>
    cases hs with
    | serve =>
      rename_i done _ _ _ c
      have hlog : done.map Call.cmd ++ [c.cmd] = (done ++ [c]).map Call.cmd := by simp
      rw [serve_eq_direct api hsmall, hlog]
      exact .answered hcalls (h.call c)
    | background hbg =>
      obtain ⟨hxy⟩ := hbg
      exact .posted hcalls (h.background hxy)
  | answered hcalls h =>
    cases hs with
    | resume htell =>
      obtain rfl := htell
      exact .idle (by simp [hcalls]) h
    | background hbg =>
      obtain ⟨hxy⟩ := hbg
      exact .answered hcalls (h.background hxy)

/-- What holds in a state of a run, after the steps `is`. -/
structure Served (api : SvApi σ) (init : List Byte) (bg : σ → σ → Prop) (x₀ : σ)
    (calls : List Call) (is : List Link.Action)
    (s : Link Script (σ × List Cmd) Byte Int Cmd (List Byte) Reply) : Prop where
  /-- After each call nothing is left on the link, each handler has run once, and the host has
      what the calls return when they are made directly. -/
  between : s.cur = none → s.Quiet ∧ ∃ done, calls = done ++ s.host.todo ∧
    s.x.2 = done.map Call.cmd ∧ Session api bg x₀ done s.host.replies s.x.1
  /-- Nobody waits for the other for ever. -/
  goesOn : (s.Quiet ∧ s.host.todo = []) ∨ ∃ i t, i ≠ .background ∧
    Link.Step script (protocol api init) (Quietly bg) s i t
  returns : (is.filter (· ≠ .background)).length ≤ 113 * calls.length

theorem script_tells (h : Script) (c : Call) (r : Reply) (_ : script.ask h = some c) :
    ∃ h', script.tell h r h' := ⟨_, rfl⟩

theorem script_left (h : Script) (c : Call) (hask : script.ask h = some c) :
    0 < h.todo.length ∧ ∀ r h', script.tell h r h' → h'.todo.length < h.todo.length := by
  obtain ⟨todo, rs⟩ := h
  obtain ⟨rest, rfl⟩ := List.head?_eq_some_iff.mp hask
  refine ⟨by simp, ?_⟩
  intro r _ he
  obtain rfl := he
  simp

/-- The link before the first call. -/
theorem start_coupled : Coupled script (protocol api init) Call.cmd Call.decode 0
    (Link.start ⟨calls, []⟩ (x₀, [])) ⟨⟨calls, []⟩, .idle, x₀, []⟩ :=
  .quiet ⟨rfl, rfl, rfl, rfl⟩

theorem served (hsmall : Small api) {is : List Link.Action}
    {s : Link Script (σ × List Cmd) Byte Int Cmd (List Byte) Reply}
    (h : Path (Link.Step script (protocol api init) (Quietly bg)) (Link.start ⟨calls, []⟩ (x₀, []))
      is s) : Served api init bg x₀ calls is s := by
  have hreach : Reach (· = Link.start ⟨calls, []⟩ (x₀, []))
      (Link.Step script (protocol api init) (Quietly bg)) s := h.reach (.init rfl)
  obtain ⟨a, ha, n, hc⟩ := Link.refines (client_calls api init) hreach
  have hscript : Scripted api bg x₀ calls a := by
    refine ha.invariant ?_ fun _ _ _ hb hs => scripted_step hsmall hb hs
    intro _ he
    obtain rfl := he
    exact .idle rfl .start
  refine ⟨fun hcur => ?_, ?_, ?_⟩
  · obtain ⟨hq, rfl⟩ := hc.quiet_of_none hcur
    refine ⟨hq, ?_⟩
    generalize s.host = host, s.x = x at hscript
    cases hscript with
    | idle hcalls h => exact ⟨_, hcalls, rfl, h⟩
  · exact (hc.ready script_tells).imp_left fun ⟨hq, hask⟩ => ⟨hq, List.head?_eq_none_iff.mp hask⟩
  · have hle := Link.bounded script_left (client_calls api init) h start_coupled
    simpa [Link.pending, Link.start] using hle

end Runs

/-- **Over a clean link the remote API is the supervisor API.** -/
theorem remote_api {init : List Byte} {bg : Machine → Machine → Prop} {m : Machine}
    {calls : List Call} {is : List Link.Action}
    {s : Link Script (Machine × List Cmd) Byte Int Cmd (List Byte) Reply}
    (h : Path (Link.Step script (protocol machineApi init) (Quietly bg))
      (Link.start ⟨calls, []⟩ (m, [])) is s) : Served machineApi init bg m calls is s :=
  served machineApi_small h

/-- A debugger that looks at the registers, to the end of its last call. -/
theorem remote_api_regs : ∃ is s, s.Quiet ∧ s.host.todo = [] ∧
    Served machineApi [] (fun _ _ => False) default [.brk, .getRegs, .cont] is s := by
  have hstart : Coupled script (protocol machineApi []) Call.cmd Call.decode 0
      (Link.start ⟨[.brk, .getRegs, .cont], []⟩ (default, [])) _ := start_coupled
  obtain ⟨is, s, h, hq, hask⟩ :=
    Link.completes script_tells script_left (client_calls machineApi []) hstart
  exact ⟨is, s, hq, List.head?_eq_none_iff.mp hask, remote_api h⟩

end LsePc.Host
