/-
  File:      LsePc/Host/Answers.lean
  Subject:   What the host library makes of a link that fails.

  * `Fails`: the errors of `lsepc_read`; a run of a call is a list of `Client.Event`;
  * `Truthful`: a result that is not negative is the payload of a response the call has
    received to its end;
  * `Misled`: the behaviours of the link that make a call return something else;
  * `recvResp_cases`, `client_cases`: what a response, and a call, can end in;
  * **result** (`answers_iff`): a call answers truly exactly when it is not misled.
-/
import LsePc.Host.Remote

namespace LsePc.Host

open LsePc.Lib LsePc.Bridge LsePc.Supervisor

/-! ## 1. What is asked of a call -/

/-- What `lsepc_read` returns when it fails: `-ETIME`, or the `errno` of `read`. -/
def Fails (e : Int) : Prop := e = -etime ∨ 0 < e

abbrev Trace := List (Client.Event Byte Int)

/-- The response with a payload. -/
def respFrame (payload : List Byte) : List Byte :=
  [protoAck, BitVec.ofNat 8 payload.length, protoStx] ++ payload ++ [protoEot]

/-- The size of the variable a call reads its response into. -/
def Call.ownSize : Call → Option Nat
  | .getStatus | .start | .stop | .brk | .cont => some 1
  | .setIoData _ | .getIoData | .getIoAddr => some 2
  | .getVersion _ _ | .getRegs => none

/-- `r` is the value of a payload, or 0 for the payload that confirms the command. -/
def Call.Means : Call → List Byte → Int → Prop
  | .getStatus, d, r => r = (d.getD 0 0).toNat
  | .getIoData, d, r | .getIoAddr, d, r => r = (word16 d 0).toNat
  | .setIoData data, d, r => r = 0 ∧ word16 d 0 = data
  | .start, d, r | .stop, d, r | .brk, d, r | .cont, d, r => r = 0 ∧ d.getD 0 0 = 0
  | .getVersion _ _, _, _ | .getRegs, _, _ => False

/-- The result is negative, or the bytes that have come end with a complete response of the
    call's own size, and it is what this response says. -/
def Truthful (c : Call) (n : Nat) (tr : Trace) (r : Int) : Prop :=
  0 ≤ r → ∃ pre payload, Client.received tr = pre ++ respFrame payload ∧ payload.length = n ∧
    c.Means payload r

/-- With `held` in the variable of the response, the call does not notice an error number. -/
def Call.TakesErrno : Call → List Byte → Prop
  | .setIoData data, held => word16 held 0 = data
  | _, _ => True

/-- With `held` in the variable of the response, the call does not notice a payload that is
    too short. -/
def Call.TakesShort : Call → List Byte → Prop
  | .setIoData data, held => word16 held 0 = data
  | .start, held | .stop, held | .brk, held | .cont, held => held.getD 0 0 = 0
  | _, _ => True

/-- A read of the response fails with an error number, or a response with too small a payload
    comes; the variable, which held `init`, then holds the bytes of the payload that have come
    and the rest of what it held. -/
def Misleading (c : Call) (n : Nat) (init : List Byte) (after : Trace) : Prop :=
  (∃ t e, after = t ++ [.failed e] ∧ 0 < e ∧
    c.TakesErrno (overwrite init ((Client.received t).drop 3))) ∨
  ∃ payload, Client.received after = respFrame payload ∧ payload.length < n ∧
    c.TakesShort (overwrite init payload)

/-- The command has been written, and what comes after it is misleading. -/
def Misled (c : Call) (n : Nat) (init : List Byte) (tr : Trace) : Prop :=
  ∃ hs after, tr = hs ++ .wrote (frame c.cmd) (frame c.cmd).length :: after ∧
    Misleading c n init after

/-! ## 2. The handshake and the command -/

theorem getsync_writes : (lsepcGetsync).Writes (· = [protoSyn]) := by
  have hsync : lsepcSync.Writes (· = [protoSyn]) := by
    rw [lsepcSync_eq]
    refine .write rfl fun n => ?_
    split
    · exact .ret _
    · refine .read fun r => ?_
      split
      · exact .ret _
      · split <;> exact .ret _
  have hloop : ∀ n, (lsepcGetsyncLoop n).Writes (· = [protoSyn]) := by
    intro n
    induction n with
    | zero => exact .ret _
    | succ n ih =>
      refine hsync.bind fun r => ?_
      split
      · exact .ret _
      · exact ih
  exact hloop syncFails

theorem Fails.ne_zero {e : Int} (h : Fails e) : e ≠ 0 := by
  rcases h with rfl | h
  · decide
  · omega

theorem eq_pair {bs : List Byte} (h : bs.length = 2) : bs = [bs.getD 0 0, bs.getD 1 0] := by
  obtain ⟨a, b, rfl⟩ := List.length_eq_two.mp h
  rfl

theorem eq_single {bs : List Byte} (h : bs.length = 1) : bs = [bs.getD 0 0] := by
  obtain ⟨a, rfl⟩ := List.length_eq_one_iff.mp h
  rfl

/-- A handshake that succeeds has just read SYN ACK. -/
theorem sync_zero {tr : Trace} (h : Client.Runs Fails lsepcSync tr 0) :
    ∃ pre, Client.received tr = pre ++ [protoSyn, protoAck] := by
  rw [lsepcSync_eq] at h
  obtain ⟨n, tr', rfl, hread⟩ := Client.runs_write h
  split at hread
  · cases (Client.runs_ret hread).2
  obtain ⟨tr₁, tr₂, -, ⟨rfl, hlen, hpair⟩ | ⟨e, rfl, -, he, herr⟩⟩ := Client.runs_block hread
  · dsimp only at hpair
    split at hpair
    · cases (Client.runs_ret hpair).2
    · rename_i hne
      obtain ⟨rfl, -⟩ := Client.runs_ret hpair
      obtain ⟨hsyn, hack⟩ := not_or.mp hne
      rw [not_not] at hsyn hack
      refine ⟨[], ?_⟩
      rw [Client.received, List.append_nil, eq_pair hlen, hsyn, hack]
      · rfl
      · intro bs htook
        cases htook
  · exact absurd (Client.runs_ret herr).2.symm he.ne_zero

theorem getsync_zero {tr : Trace} (h : Client.Runs Fails lsepcGetsync tr 0) :
    ∃ pre, Client.received tr = pre ++ [protoSyn, protoAck] := by
  have hloop : ∀ n {tr : Trace}, Client.Runs Fails (lsepcGetsyncLoop n) tr 0 →
      ∃ pre, Client.received tr = pre ++ [protoSyn, protoAck] := by
    intro n
    induction n with
    | zero =>
      intro tr h
      cases (Client.runs_ret h).2
    | succ n ih =>
      intro tr h
      obtain ⟨tr₁, tr₂, r, rfl, h₁, h₂⟩ := Client.runs_bind (p := lsepcSync) h
      rw [Client.received_append]
      split at h₂
      · rename_i hr
        obtain ⟨rfl, -⟩ := Client.runs_ret h₂
        rw [hr] at h₁
        obtain ⟨pre, hpre⟩ := sync_zero h₁
        exact ⟨pre, by rw [hpre]; exact List.append_nil _⟩
      · obtain ⟨pre, hpre⟩ := ih h₂
        exact ⟨Client.received tr₁ ++ pre, by rw [hpre, List.append_assoc]⟩
  exact hloop syncFails h

theorem frame_ne_syn (c : Cmd) : frame c ≠ [protoSyn] := by
  intro h
  have := congrArg List.length h
  simp [frame] at this

/-- `lsepc_send_cmd` fails, or the whole command has been written after a handshake. -/
theorem sendCmd_cases {c : Cmd} {tr : Trace} {ret : Int}
    (h : Client.Runs Fails (lsepcSendCmd c.code c.args) tr ret) :
    (ret < 0 ∧ .wrote (frame c) (frame c).length ∉ tr) ∨
      (ret = 0 ∧ ∃ hs pre, tr = hs ++ [.wrote (frame c) (frame c).length] ∧
        .wrote (frame c) (frame c).length ∉ hs ∧
        Client.received hs = pre ++ [protoSyn, protoAck]) := by
  have hlen : ¬ (frame c).length > protoCmdSize := by
    have hargs : c.args.length ≤ 2 := by cases c <;> simp [Cmd.args, le16]
    simp only [frame, List.length_append, List.length_cons, List.length_nil, protoCmdSize]
    omega
  have hsend : lsepcSendCmd c.code c.args = lsepcGetsync.bind fun r =>
      if r ≠ 0 then .ret (-eremoteio) else .write (frame c) fun n =>
        if n ≠ (frame c).length then .ret (-ecomm) else .ret 0 := by
    change (if (frame c).length > protoCmdSize then _ else _) = _
    rw [if_neg hlen]
    rfl
  rw [hsend] at h
  obtain ⟨hs, tr₂, r, rfl, h₁, h₂⟩ := Client.runs_bind h
  have hno : ∀ n, Client.Event.wrote (frame c) n ∉ hs := fun n hm =>
    frame_ne_syn c (getsync_writes.wrote h₁ _ _ hm)
  split at h₂
  · obtain ⟨rfl, rfl⟩ := Client.runs_ret h₂
    rw [List.append_nil]
    exact .inl ⟨by decide, hno _⟩
  · rename_i hr
    rw [not_not] at hr
    rw [hr] at h₁
    obtain ⟨n, tr', rfl, h₃⟩ := Client.runs_write h₂
    split at h₃
    · rename_i hn
      obtain ⟨rfl, rfl⟩ := Client.runs_ret h₃
      refine .inl ⟨by decide, fun hm => ?_⟩
      rcases List.mem_append.mp hm with hm | hm
      · exact hno _ hm
      · cases List.mem_singleton.mp hm
        exact hn rfl
    · rename_i hn
      rw [not_not] at hn
      obtain ⟨rfl, rfl⟩ := Client.runs_ret h₃
      obtain ⟨pre, hpre⟩ := getsync_zero h₁
      exact .inr ⟨rfl, hs, pre, by rw [hn], hno _, hpre⟩

/-! ## 3. The response -/

/-- A response that has not come to its end. -/
def Unfinished (size : Nat) (bs : List Byte) : Prop :=
  bs = [] ∨ bs = [protoAck] ∨ (∃ k, bs = [protoAck, k]) ∨
    ∃ k part, bs = [protoAck, k, protoStx] ++ part ∧ k.toNat ≤ size ∧ part.length ≤ k.toNat

/-- **What `lsepc_recv_resp` can end in**: a complete response, a read that failed, or
    something that is no response. -/
inductive Received (init : List Byte) (size : Nat) : Trace → Int → List Byte → Prop where
  | complete {tr : Trace} {payload : List Byte} (htook : Client.Took tr)
      (hrec : Client.received tr = respFrame payload) (hle : payload.length ≤ size) :
      Received init size tr 0 (overwrite init payload)
  | failed {tr : Trace} {e : Int} (htook : Client.Took tr) (he : Fails e)
      (hrec : Unfinished size (Client.received tr)) :
      Received init size (tr ++ [.failed e]) e (overwrite init ((Client.received tr).drop 3))
  | refused {tr : Trace} {ret : Int} {resp : List Byte} (htook : Client.Took tr) (hneg : ret < 0)
      (hrec : ∀ payload, payload.length ≤ size → Client.received tr ≠ respFrame payload) :
      Received init size tr ret resp

theorem Received.no_wrote {init : List Byte} {size : Nat} {tr : Trace} {ret : Int}
    {resp : List Byte} (h : Received init size tr ret resp) {bs : List Byte} {n : Nat} :
    .wrote bs n ∉ tr := by
  have htook : ∀ {t : Trace}, Client.Took t → .wrote bs n ∉ t := by
    intro t ht hm
    obtain ⟨bs', he⟩ := ht _ hm
    cases he
  cases h with
  | complete h | refused h => exact htook h
  | failed h =>
    intro hm
    rcases List.mem_append.mp hm with hm | hm
    · exact htook h hm
    · cases List.mem_singleton.mp hm

/-! ### From its last read to its first -/

/-- `lsepc_recv_resp` from the read of EOT, with the payload stored. -/
def recvFtr (resp : List Byte) : Io (Int × List Byte) := .read [] 1 fun
  | .error (ret, _) => .ret (ret, resp)
  | .ok ftr => if ftr.getD 0 0 ≠ protoEot then .ret (-ebadmsg, resp) else .ret (0, resp)

/-- From the read of the payload. -/
def recvPayload (init : List Byte) (size : Nat) : Io (Int × List Byte) := .read [] size fun
  | .error (ret, resp) => .ret (ret, overwrite init resp)
  | .ok resp => recvFtr (overwrite init resp)

/-- From the read of the size and STX. -/
def recvHdr (init : List Byte) (size : Nat) : Io (Int × List Byte) := .read [] 2 fun
  | .error (ret, _) => .ret (ret, init)
  | .ok hdr =>
    if hdr.getD 1 0 ≠ protoStx then .ret (-ebadmsg, init)
    else if (hdr.getD 0 0).toNat > size then .ret (-emsgsize, init)
    else recvPayload init (hdr.getD 0 0).toNat

theorem lsepcRecvResp_eq (init : List Byte) (size : Nat) : lsepcRecvResp init size =
    .read [] 1 fun
      | .error (ret, _) => .ret (ret, init)
      | .ok ack =>
        if ack.getD 0 0 = protoNak then .ret (-ecanceled, init)
        else if ack.getD 0 0 ≠ protoAck then .ret (-ebadmsg, init)
        else recvHdr init size := rfl

theorem respFrame_cons (payload : List Byte) : respFrame payload =
    protoAck :: BitVec.ofNat 8 payload.length :: protoStx :: (payload ++ [protoEot]) := rfl

/-- A read of one byte that failed has taken none. -/
theorem received_nil {t : Trace}
    (h : (Client.received t).length < 1 ∨ Client.received t = []) : Client.received t = [] := by
  rcases h with hlt | hnil
  · exact List.eq_nil_of_length_eq_zero (by omega)
  · exact hnil

section

variable {init resp payload : List Byte} {size : Nat} {t tr : Trace} {ret : Int} {k : Byte}

/-- The call returns because of a read that failed. -/
theorem failed_ret {e : Int} {held : List Byte} (htook : Client.Took t) (he : Fails e)
    (hrec : Unfinished size (Client.received t))
    (hheld : held = overwrite init ((Client.received t).drop 3))
    (h : Client.Runs Fails (.ret (e, held)) tr (ret, resp)) :
    Received init size (t ++ .failed e :: tr) ret resp := by
  obtain ⟨rfl, he'⟩ := Client.runs_ret h
  cases he'
  rw [hheld]
  exact .failed htook he hrec

/-- The call returns because of what it has received. -/
theorem refused_ret {e : Int} {held : List Byte} (htook : Client.Took t) (he : e < 0)
    (hrec : ∀ payload, payload.length ≤ size → Client.received t ≠ respFrame payload)
    (h : Client.Runs Fails (.ret (e, held)) tr (ret, resp)) :
    Received init size (t ++ tr) ret resp := by
  obtain ⟨rfl, he'⟩ := Client.runs_ret h
  cases he'
  rw [List.append_nil]
  exact .refused htook he hrec

theorem recvFtr_cases (htook : Client.Took t)
    (hrec : Client.received t = [protoAck, k, protoStx] ++ payload)
    (hlen : payload.length = k.toNat) (hfit : k.toNat ≤ size)
    (h : Client.Runs Fails (recvFtr (overwrite init payload)) tr (ret, resp)) :
    Received init size (t ++ tr) ret resp := by
  have hk : k = BitVec.ofNat 8 payload.length := by
    rw [hlen, BitVec.ofNat_toNat, BitVec.setWidth_eq]
  obtain ⟨t', tr', htook', ⟨rfl, hlen', h'⟩ | ⟨e, rfl, hlen', he, h'⟩⟩ := Client.runs_block h
  case inr =>
    have hall : Client.received (t ++ t') = [protoAck, k, protoStx] ++ payload := by
      rw [Client.received_append, hrec, received_nil hlen', List.append_nil]
    rw [← List.append_assoc]
    exact failed_ret (htook.append htook') he
      (.inr (.inr (.inr ⟨k, payload, hall, hfit, Nat.le_of_eq hlen⟩))) (by rw [hall]; rfl) h'
  dsimp only at h'
  have hftr := eq_single hlen'
  generalize (Client.received t').getD 0 0 = eot at h' hftr
  have hall : Client.received (t ++ t') = protoAck :: k :: protoStx :: (payload ++ [eot]) := by
    rw [Client.received_append, hrec, hftr]
    rfl
  rw [← List.append_assoc]
  split at h'
  · rename_i heot
    refine refused_ret (htook.append htook') (by decide) (fun payload' _ he => ?_) h'
    rw [hall, respFrame_cons] at he
    simp only [List.cons.injEq, true_and] at he
    exact heot (List.cons.inj (List.append_inj_right' he.2 rfl)).1
  · rename_i heot
    rw [not_not] at heot
    obtain ⟨rfl, he⟩ := Client.runs_ret h'
    cases he
    rw [List.append_nil]
    refine .complete (htook.append htook') ?_ (by omega)
    rw [hall, heot, hk, respFrame_cons]

theorem recvPayload_cases (htook : Client.Took t)
    (hrec : Client.received t = [protoAck, k, protoStx]) (hfit : k.toNat ≤ size)
    (h : Client.Runs Fails (recvPayload init k.toNat) tr (ret, resp)) :
    Received init size (t ++ tr) ret resp := by
  obtain ⟨t', tr', htook', ⟨rfl, hlen', h'⟩ | ⟨e, rfl, hlen', he, h'⟩⟩ := Client.runs_block h
  · rw [← List.append_assoc]
    refine recvFtr_cases (htook.append htook') ?_ hlen' hfit h'
    rw [Client.received_append, hrec]
  · have hpart : (Client.received t').length ≤ k.toNat := by
      rcases hlen' with hlt | hnil
      · exact Nat.le_of_lt hlt
      · rw [hnil]
        exact Nat.zero_le _
    have hall : Client.received (t ++ t') = [protoAck, k, protoStx] ++ Client.received t' := by
      rw [Client.received_append, hrec]
    rw [← List.append_assoc]
    exact failed_ret (htook.append htook') he
      (.inr (.inr (.inr ⟨k, _, hall, hfit, hpart⟩))) (by rw [hall]; rfl) h'

theorem recvHdr_cases (htook : Client.Took t) (hrec : Client.received t = [protoAck])
    (h : Client.Runs Fails (recvHdr init size) tr (ret, resp)) :
    Received init size (t ++ tr) ret resp := by
  obtain ⟨t', tr', htook', ⟨rfl, hlen', h'⟩ | ⟨e, rfl, hlen', he, h'⟩⟩ := Client.runs_block h
  case inr =>
    have hshort : Client.received t' = [] ∨ ∃ k, Client.received t' = [k] := by
      rcases hlen' with hlt | hnil
      · rcases Nat.lt_or_eq_of_le (Nat.le_of_lt_succ hlt) with hlt | hlen
        · exact .inl (List.eq_nil_of_length_eq_zero (by omega))
        · exact .inr (List.length_eq_one_iff.mp hlen)
      · exact .inl hnil
    have hall : Unfinished size (Client.received (t ++ t')) ∧
        (Client.received (t ++ t')).drop 3 = [] := by
      rw [Client.received_append, hrec]
      rcases hshort with hnil | ⟨k, hk⟩
      · rw [hnil]
        exact ⟨.inr (.inl rfl), rfl⟩
      · rw [hk]
        exact ⟨.inr (.inr (.inl ⟨k, rfl⟩)), rfl⟩
    rw [← List.append_assoc]
    exact failed_ret (htook.append htook') he hall.1 (by rw [hall.2]; rfl) h'
  dsimp only at h'
  have hhdr := eq_pair hlen'
  generalize (Client.received t').getD 0 0 = k at h' hhdr
  generalize (Client.received t').getD 1 0 = stx at h' hhdr
  have hall : Client.received (t ++ t') = [protoAck, k, stx] := by
    rw [Client.received_append, hrec, hhdr]
    rfl
  rw [← List.append_assoc]
  split at h'
  · rename_i hstx
    refine refused_ret (htook.append htook') (by decide) (fun payload _ he => ?_) h'
    rw [hall, respFrame_cons] at he
    simp only [List.cons.injEq] at he
    exact hstx he.2.2.1
  rename_i hstx
  rw [not_not] at hstx
  subst hstx
  split at h'
  · refine refused_ret (htook.append htook') (by decide) (fun payload _ he => ?_) h'
    rw [hall, respFrame_cons] at he
    simp at he
  · rename_i hfit
    exact recvPayload_cases (htook.append htook') hall (Nat.le_of_not_lt hfit) h'

theorem recvResp_cases (h : Client.Runs Fails (lsepcRecvResp init size) tr (ret, resp)) :
    Received init size tr ret resp := by
  rw [lsepcRecvResp_eq] at h
  obtain ⟨t, tr', htook, ⟨rfl, hlen, h'⟩ | ⟨e, rfl, hlen, he, h'⟩⟩ := Client.runs_block h
  case inr =>
    have hnil := received_nil hlen
    exact failed_ret htook he (.inl hnil) (by rw [hnil]; rfl) h'
  dsimp only at h'
  have hack := eq_single hlen
  generalize (Client.received t).getD 0 0 = ack at h' hack
  split at h'
  · rename_i hnak
    refine refused_ret htook (by decide) (fun payload _ he => ?_) h'
    rw [hack, respFrame_cons, hnak] at he
    cases he
  split at h'
  · refine refused_ret htook (by decide) (fun payload _ he => ?_) h'
    rw [hack, respFrame_cons] at he
    cases he
  · rename_i hok
    rw [not_not] at hok
    rw [hok] at hack
    exact recvHdr_cases htook hack h'

end

/-! ## 4. A call -/

/-- What a call makes of the return value of `lsepc_recv_resp` and its variable. -/
def Call.result : Call → Int → List Byte → Int
  | .getStatus, ret, d => if ret ≠ 0 then ret else (d.getD 0 0).toNat
  | .start, ret, d | .stop, ret, d | .brk, ret, d | .cont, ret, d =>
    if ret ≠ 0 then ret else if d.getD 0 0 ≠ 0 then -enosys else 0
  | .setIoData data, ret, d => if ret < 0 then ret else if word16 d 0 ≠ data then -eremoteio else 0
  | .getIoData, ret, d | .getIoAddr, ret, d => if ret < 0 then ret else (word16 d 0).toNat
  | .getVersion _ _, ret, _ | .getRegs, ret, _ => ret

/-- Every call of the eight sends its command and reads a response of its own size. -/
theorem client_eq {c : Call} {n : Nat} (hn : c.ownSize = some n) (init : List Byte) :
    c.client init = (lsepcSendCmd c.cmd.code c.cmd.args).bind fun ret =>
      if ret < 0 then .ret (.ret ret) else (lsepcRecvResp init n).bind fun r =>
        .ret (.ret (c.result r.1 r.2)) := by
  -- the branches of a function, as the branches of what it returns
  have hite : ∀ (p : Prop) [Decidable p] (a b : Int),
      (if p then Client.ret (.ret a) else Client.ret (.ret b) : Io Reply) =
        .ret (.ret (if p then a else b)) := fun p _ a b => by split <;> rfl
  have hsend : ∀ {f g : Int × List Byte → Io Reply} (cmd : Byte) (args : List Byte), f = g →
      ((lsepcSendCmd cmd args).bind fun ret =>
        if ret < 0 then .ret (.ret ret) else (lsepcRecvResp init n).bind f) =
      (lsepcSendCmd cmd args).bind fun ret =>
        if ret < 0 then .ret (.ret ret) else (lsepcRecvResp init n).bind g :=
    fun _ _ h => by rw [h]
  cases c <;> cases hn <;> refine hsend _ _ (funext fun r => ?_)
  case getStatus => exact hite ..
  case setIoData data =>
    change (if r.1 < 0 then Client.ret (.ret r.1) else .ret (.ret _) : Io Reply) = _
    exact hite ..
  case getIoData | getIoAddr => exact hite ..
  all_goals
    change (if r.1 ≠ 0 then Client.ret (.ret r.1) else
      if r.2.getD 0 0 ≠ 0 then Client.ret (.ret (-enosys)) else .ret (.ret 0) : Io Reply) = _
    rw [hite, hite]
    rfl

/-- **What a call can end in.** -/
theorem client_cases {c : Call} {n : Nat} (hn : c.ownSize = some n) {init : List Byte}
    {tr : Trace} {r : Int} (h : Client.Runs Fails (c.client init) tr (.ret r)) :
    (r < 0 ∧ .wrote (frame c.cmd) (frame c.cmd).length ∉ tr) ∨
      ∃ hs pre after ret resp, tr = hs ++ .wrote (frame c.cmd) (frame c.cmd).length :: after ∧
        .wrote (frame c.cmd) (frame c.cmd).length ∉ hs ∧
        Client.received hs = pre ++ [protoSyn, protoAck] ∧
        Received init n after ret resp ∧ r = c.result ret resp := by
  rw [client_eq hn] at h
  obtain ⟨tr₁, tr₂, ret, rfl, h₁, h₂⟩ := Client.runs_bind h
  obtain ⟨hneg, hno⟩ | ⟨rfl, hs, pre, rfl, hno, hpre⟩ := sendCmd_cases h₁
  · rw [if_pos hneg] at h₂
    obtain ⟨rfl, he⟩ := Client.runs_ret h₂
    cases he
    rw [List.append_nil]
    exact .inl ⟨hneg, hno⟩
  · rw [if_neg (by decide)] at h₂
    obtain ⟨after, tr₃, ⟨ret, resp⟩, rfl, h₃, h₄⟩ := Client.runs_bind h₂
    obtain ⟨rfl, he⟩ := Client.runs_ret h₄
    cases he
    refine .inr ⟨hs, pre, after, ret, resp, ?_, hno, hpre, recvResp_cases h₃, rfl⟩
    rw [List.append_nil, List.append_assoc]
    rfl

/-! ### Responses that are not complete -/

theorem respFrame_injective {p q : List Byte} (h : respFrame p = respFrame q) : p = q := by
  rw [respFrame_cons, respFrame_cons] at h
  simp only [List.cons.injEq] at h
  exact List.append_cancel_right h.2.2.2

theorem Unfinished.ne_frame {n : Nat} {bs p : List Byte} (h : Unfinished n bs) :
    bs ≠ respFrame p := by
  rw [respFrame_cons]
  intro he
  rcases h with rfl | rfl | ⟨k, rfl⟩ | ⟨k, part, rfl, hk, hpart⟩
  · cases he
  · cases he
  · simp at he
  · simp only [List.cons_append, List.nil_append, List.cons.injEq] at he
    obtain ⟨-, rfl, -, rfl⟩ := he
    rw [BitVec.toNat_ofNat] at hpart
    rw [List.length_append, List.length_singleton] at hpart
    have := Nat.mod_le p.length 256
    omega

/-- A response that is not complete, or too short for `n`, ends before its EOT would come. -/
theorem short_shape {n : Nat} {bs : List Byte}
    (h : Unfinished n bs ∨ ∃ q, bs = respFrame q ∧ q.length < n) :
    bs = [] ∨ bs = [protoAck] ∨ (∃ k, bs = [protoAck, k]) ∨
      ∃ k part, bs = [protoAck, k, protoStx] ++ part ∧ part.length ≤ n := by
  rcases h with (rfl | rfl | ⟨k, rfl⟩ | ⟨k, part, rfl, hk, hpart⟩) | ⟨q, rfl, hq⟩
  · exact .inl rfl
  · exact .inr (.inl rfl)
  · exact .inr (.inr (.inl ⟨k, rfl⟩))
  · exact .inr (.inr (.inr ⟨k, part, rfl, Nat.le_trans hpart hk⟩))
  · refine .inr (.inr (.inr ⟨_, q ++ [protoEot], rfl, ?_⟩))
    rw [List.length_append, List.length_singleton]
    exact hq

/-- The bytes before such a response do not make it a complete one. -/
theorem no_suffix {n : Nat} {pre pre' bs p : List Byte} (hn : n = 1 ∨ n = 2) (hp : p.length = n)
    (hbs : Unfinished n bs ∨ ∃ q, bs = respFrame q ∧ q.length < n) :
    pre ++ [protoSyn, protoAck] ++ bs ≠ pre' ++ respFrame p := by
  intro h
  have hrev := congrArg List.reverse h
  clear h
  have hp' : (∃ a, p = [a]) ∨ ∃ a b, p = [a, b] := by
    rw [← hp, List.length_eq_one_iff, List.length_eq_two] at hn
    exact hn
  have hshape := short_shape hbs
  clear hbs
  -- the bytes from the end, one shape of the response after the other
  rcases hshape with rfl | rfl | ⟨k, rfl⟩ | ⟨k, part, rfl, hpart⟩
  case inr.inr.inr =>
    have hparts : part = [] ∨ (∃ x, part = [x]) ∨ n = 2 ∧ ∃ x y, part = [x, y] := by
      rcases part with _ | ⟨x, _ | ⟨y, _ | ⟨z, part⟩⟩⟩
      · exact .inl rfl
      · exact .inr (.inl ⟨x, rfl⟩)
      · have hle : 2 ≤ n := hpart
        exact .inr (.inr ⟨by omega, x, y, rfl⟩)
      · simp only [List.length_cons] at hpart
        omega
    rcases hp' with ⟨a, rfl⟩ | ⟨a, b, rfl⟩ <;>
      rcases hparts with rfl | ⟨x, rfl⟩ | ⟨rfl, x, y, rfl⟩ <;>
      simp [respFrame, protoSyn, protoAck, protoStx, protoEot] at hrev hp
  all_goals
    rcases hp' with ⟨a, rfl⟩ | ⟨a, b, rfl⟩ <;>
      simp [respFrame, protoSyn, protoAck, protoStx, protoEot] at hrev

/-! ### What a call makes of it -/

section
variable {c : Call} {n : Nat} (hn : c.ownSize = some n)
include hn

theorem result_neg {ret : Int} (h : ret < 0) (d : List Byte) : c.result ret d < 0 := by
  have hne : ret ≠ 0 := by omega
  cases c <;> cases hn <;> dsimp only [Call.result] <;> first | rwa [if_pos hne] | rwa [if_pos h]

theorem result_errno {e : Int} (h : 0 < e) (d : List Byte) :
    0 ≤ c.result e d ↔ c.TakesErrno d := by
  have hne : e ≠ 0 := by omega
  have hlt : ¬ e < 0 := by omega
  cases c <;> cases hn <;> dsimp only [Call.result, Call.TakesErrno]
  case setIoData data =>
    rw [if_neg hlt]
    by_cases hd : word16 d 0 = data
    · simp [hd]
    · simp [hd, eremoteio]
  case getIoData | getIoAddr =>
    rw [if_neg hlt]
    exact iff_true_intro (Int.natCast_nonneg _)
  all_goals
    rw [if_pos hne]
    exact iff_true_intro (Int.le_of_lt h)

theorem result_zero (d : List Byte) : 0 ≤ c.result 0 d ↔ c.TakesShort d := by
  cases c <;> cases hn <;> dsimp only [Call.result, Call.TakesShort]
  case setIoData data => by_cases hd : word16 d 0 = data <;> simp [hd, eremoteio]
  case getIoData | getIoAddr | getStatus => exact iff_true_intro (Int.natCast_nonneg _)
  all_goals
    by_cases hret : d.getD 0 0 = 0
    · rw [if_neg (by decide), if_neg (not_not.mpr hret)]
      exact iff_of_true (Int.le_refl 0) hret
    · rw [if_neg (by decide), if_pos hret]
      exact iff_of_false (by decide) hret

theorem result_means {init payload : List Byte} (hp : payload.length = n)
    (h : 0 ≤ c.result 0 (overwrite init payload)) :
    c.Means payload (c.result 0 (overwrite init payload)) := by
  have hbyte : 0 < payload.length → (overwrite init payload).getD 0 0 = payload.getD 0 0 :=
    overwrite_getD
  have hword : 1 < payload.length → word16 (overwrite init payload) 0 = word16 payload 0 :=
    fun h => overwrite_word16 h
  have htake := (result_zero hn _).mp h
  cases c <;> cases hn <;> dsimp only [Call.result, Call.Means, Call.TakesShort] at htake ⊢
  case getStatus =>
    rw [if_neg (by decide), hbyte (by omega)]
  case getIoData | getIoAddr =>
    rw [if_neg (by decide), hword (by omega)]
  case setIoData data =>
    rw [if_neg (by decide), if_neg (not_not.mpr htake)]
    rw [hword (by omega)] at htake
    exact ⟨rfl, htake⟩
  all_goals
    rw [if_neg (by decide), if_neg (not_not.mpr htake)]
    rw [hbyte (by omega)] at htake
    exact ⟨rfl, htake⟩

theorem ownSize_cases : n = 1 ∨ n = 2 := by
  cases c <;> cases hn <;> decide

end

/-! ## 5. When a call answers -/

section

variable {c : Call} {n : Nat} {init payload : List Byte} {t : Trace}

/-- A complete response misleads by its size. -/
theorem misleading_complete (htook : Client.Took t) (hrec : Client.received t = respFrame payload) :
    Misleading c n init t ↔ payload.length < n ∧ c.TakesShort (overwrite init payload) := by
  constructor
  · intro h
    rcases h with ⟨t', e, he, -⟩ | ⟨q, hq, h⟩
    · exact absurd he htook.not_failed
    · rwa [respFrame_injective (hrec.symm.trans hq)]
  · exact fun h => .inr ⟨payload, hrec, h⟩

/-- A read that failed misleads by its error. -/
theorem misleading_failed {e : Int} (hrec : Unfinished n (Client.received t)) :
    Misleading c n init (t ++ [.failed e]) ↔
      0 < e ∧ c.TakesErrno (overwrite init ((Client.received t).drop 3)) := by
  constructor
  · intro h
    rcases h with ⟨t', e', he, h⟩ | ⟨q, hq, -⟩
    · obtain ⟨rfl, hlast⟩ := List.append_inj' he rfl
      cases hlast
      exact h
    · rw [Client.received_failed] at hq
      exact absurd hq hrec.ne_frame
  · exact fun h => .inl ⟨t, e, rfl, h⟩

/-- What is no response does not mislead. -/
theorem misleading_refused (htook : Client.Took t)
    (hrec : ∀ payload, payload.length ≤ n → Client.received t ≠ respFrame payload) :
    ¬ Misleading c n init t := by
  intro h
  rcases h with ⟨t', e, he, -⟩ | ⟨q, hq, hlt, -⟩
  · exact htook.not_failed he
  · exact hrec q (Nat.le_of_lt hlt) hq

/-- The command is written once, so what comes after it is known. -/
theorem misled_iff {hs after : Trace}
    (hhs : .wrote (frame c.cmd) (frame c.cmd).length ∉ hs)
    (hafter : .wrote (frame c.cmd) (frame c.cmd).length ∉ after) :
    Misled c n init (hs ++ .wrote (frame c.cmd) (frame c.cmd).length :: after) ↔
      Misleading c n init after := by
  constructor
  · intro h
    obtain ⟨hs', after', he, h⟩ := h
    obtain ⟨-, -, rfl⟩ := (List.append_cons_inj_of_notMem hhs hafter).mp he
    exact h
  · exact fun h => ⟨hs, after, rfl, h⟩

/-- **A call answers truly exactly when it is not misled**: in every run whatever the link does
    and whatever its variable held. -/
theorem answers_iff (hn : c.ownSize = some n) {tr : Trace} {r : Int}
    (h : Client.Runs Fails (c.client init) tr (.ret r)) :
    Truthful c n tr r ↔ ¬ Misled c n init tr := by
  obtain ⟨hneg, hno⟩ | ⟨hs, pre, after, ret, resp, rfl, hno, hpre, hrec, rfl⟩ := client_cases hn h
  · -- the command has not been written
    refine iff_of_true (fun hr => absurd hr (by omega)) fun hmis => ?_
    obtain ⟨hs, after, rfl, -⟩ := hmis
    exact hno (List.mem_append_right _ List.mem_cons_self)
  have hbytes : Client.received (hs ++ .wrote (frame c.cmd) (frame c.cmd).length :: after) =
      pre ++ [protoSyn, protoAck] ++ Client.received after := by
    rw [Client.received_append, hpre]
    rfl
  rw [misled_iff hno hrec.no_wrote, Truthful, hbytes]
  have hnone : (Unfinished n (Client.received after) ∨
      ∃ q, Client.received after = respFrame q ∧ q.length < n) →
      ¬ ∃ pre' payload, pre ++ [protoSyn, protoAck] ++ Client.received after =
        pre' ++ respFrame payload ∧ payload.length = n ∧
        c.Means payload (c.result ret resp) := by
    intro hbs hex
    obtain ⟨pre', payload, he, hlen, -⟩ := hex
    exact no_suffix (ownSize_cases hn) hlen hbs he
  clear hno hpre hbytes h
  cases hrec with
  | @complete _ payload htook hrec hle =>
    rw [misleading_complete htook hrec, ← result_zero hn]
    rcases Nat.lt_or_eq_of_le hle with hlt | heq
    · -- a payload that is too short
      exact ⟨fun h hr => hnone (.inr ⟨payload, hrec, hlt⟩) (h hr.2), fun h hr => absurd ⟨hlt, hr⟩ h⟩
    · refine iff_of_true (fun hr => ?_) fun hlt => absurd heq (Nat.ne_of_lt hlt.1)
      exact ⟨pre ++ [protoSyn, protoAck], payload, by rw [hrec], heq, result_means hn heq hr⟩
  | @failed t _ htook he hrec =>
    rw [misleading_failed hrec]
    rcases he with rfl | hpos
    · have hneg := result_neg hn (show -etime < 0 by decide)
        (overwrite init ((Client.received t).drop 3))
      exact iff_of_true (fun hr => absurd hr (by omega)) fun h => absurd h.1 (by decide)
    · rw [Client.received_failed] at hnone ⊢
      rw [← result_errno hn hpos]
      exact ⟨fun h hr => hnone (.inl hrec) (h hr.2), fun h hr => absurd ⟨hpos, hr⟩ h⟩
  | refused htook hneg hrec =>
    have hneg := result_neg hn hneg resp
    exact iff_of_true (fun hr => absurd hr (by omega)) (misleading_refused htook hrec)

end

/-- A run of `lsepc_get_status` up to its response. -/
def statusTrace (response : Trace) : Trace :=
  [.wrote [protoSyn] 1, .took [protoSyn, protoAck], .wrote (frame .getStatus) 5] ++ response

/-- A status that comes in three pieces. -/
theorem answers_status : ¬ Misled .getStatus 1 [0]
    (statusTrace [.took [protoAck], .took [1, protoStx], .took [7], .took [protoEot]]) :=
  (answers_iff (r := 7) rfl
    (.write (.took (by decide) (.write (.took (by decide) (.took (by decide)
      (.took (by decide) (.took (by decide) (.ret _))))))))).mp
    fun _ => ⟨[protoSyn, protoAck], [7], rfl, rfl, rfl⟩

/-- The `EIO` of the first read of the response is a status. -/
theorem errno_is_status :
    Client.Runs Fails (Call.client [0] .getStatus) (statusTrace [.failed 5]) (.ret 5) ∧
      ¬ Truthful .getStatus 1 (statusTrace [.failed 5]) 5 := by
  constructor
  · exact .write (.took (by decide) (.write (.failed (.inr (by decide)) (.ret _))))
  · intro h
    obtain ⟨pre, payload, he, -⟩ := h (by decide)
    have hlen := congrArg List.length he
    simp only [statusTrace, Client.received, respFrame, List.length_append, List.length_cons,
      List.length_nil, List.cons_append, List.nil_append] at hlen
    omega

end LsePc.Host
