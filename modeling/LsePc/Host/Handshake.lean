/-
  File:      LsePc/Host/Handshake.lean
  Subject:   What the SYN handshake can repair.

  A call that timed out may leave bytes that the host has not read and a supervisor that waits
  inside a frame. `lsepc_getsync` sends a SYN and reads two bytes, up to three times.

  * `Resyncs`: it returns 0 in every run, and the link is then clean;
  * `synced`: what becomes of the link, worked out try by try; `ends_getsync`: it does;
  * `synced_iff`: when this is a clean link;
  * **result** (`resyncs_iff`): which points of a frame and which bytes it repairs.
-/
import LsePc.Host.Remote
import LsePc.Lib.Timed
import LsePc.Supervisor.Parser

namespace LsePc.Host

open LsePc.Lib LsePc.Bridge LsePc.Supervisor

/-! ## 1. The handshake on the link -/

/-- Nothing is called besides `lsepc_getsync`. -/
def alone : Caller Unit Empty Int where
  ask _ := none
  tell _ _ _ := False

/-- `proto_handle` with its callbacks. -/
def endpoint {σ : Type} (api : SvApi σ) : Protocol σ Byte Int Empty Cmd (List Byte) Int where
  client := nofun
  body := protoHandle
  handler := api.callback

/-- `lsepc_getsync` is called with the bytes `stale` to read, and `proto_handle` waits at `u`. -/
def desynced {σ : Type} (u : Uart Unit) (stale : List Byte) (x : σ) :
    Link Unit σ Byte Int Cmd (List Byte) Int :=
  ⟨(), some lsepcGetsync, [], stale, u, x⟩

/-- `lsepc_getsync` has returned `ret`, and the link is clean. -/
structure Resynced {σ : Type} (s : Link Unit σ Byte Int Cmd (List Byte) Int) (ret : Int) :
    Prop where
  ret_eq : ret = 0
  queue : s.toClient = []
  /-- The supervisor is at the top, and nothing is on its way to it. -/
  top : s.server = .ret () ∧ s.toServer = []
  /-- The next command is run, and what is read next is its response. -/
  command : ∀ c : Cmd, protoHandle.feed (s.toServer ++ frame c) =
    some (.call c fun d => .puts (ackBytes d))
  response : ∀ {α : Type} (init d : List Byte) (size : Nat) (g : Int × List Byte → Io α), d ≠ [] →
    d.length ≤ size → d.length < 256 →
    ((lsepcRecvResp init size).bind g).feed (s.toClient ++ ackBytes d) =
      some (g (0, overwrite init d))

/-- Every run comes to an end, in which the link is clean as soon as `lsepc_getsync` has
    returned. -/
def Resyncs {σ : Type} (api : SvApi σ) (bg : σ → σ → Prop) (x : σ) (u : Uart Unit)
    (stale : List Byte) : Prop :=
  ∃ N, ∀ is s, Path (Link.Timed alone (endpoint api) bg (-etime)) (desynced u stale x) is s →
    (is.filter (· ≠ some .background)).length ≤ N ∧
    ((∃ ret, s.cur = some (.ret ret)) ∨ ∃ i t, i ≠ some .background ∧
      Link.Timed alone (endpoint api) bg (-etime) s i t) ∧
    ∀ ret, s.cur = some (.ret ret) → Resynced s ret

/-! ## 2. A SYN at any point -/

/-- What `proto_handle` makes of a SYN. -/
theorem gives_syn (p : Parser) : ∃ m, Server.Gives protoHandle m p.waits [protoSyn]
    (p.step protoSyn).answer (p.step protoSyn).next.waits := by
  by_cases htop : p = .top
  · subst htop
    exact ⟨_, .again (List.cons_ne_nil _ _) (.get (.put (.put (.waits trivial))))⟩
  · rw [Parser.waits_eq htop, prog_eq]
    obtain ⟨-, hstep⟩ | ⟨p', hstep, htop', -⟩ := Parser.syn_step htop
    · refine ⟨2, .get ?_⟩
      change Server.Gives _ _ (p.step protoSynByte).prog _ (p.step protoSynByte).answer
        (p.step protoSynByte).next.waits
      rw [hstep]
      exact .put (.waits trivial)
    · refine ⟨1, .get ?_⟩
      change Server.Gives _ _ (p.step protoSynByte).prog _ (p.step protoSynByte).answer
        (p.step protoSynByte).next.waits
      rw [hstep]
      change Server.Gives _ _ p'.prog [] [] p'.waits
      rw [Parser.waits_eq htop', prog_eq]
      exact .waits trivial

/-- The rest of `lsepc_getsync` with `n` tries left: what it returns, the bytes it leaves and
    where it leaves `proto_handle`, when `r` is there to read. A try that finds less than two
    bytes times out, and what it has read is gone. -/
def synced : Nat → List Byte → Parser → Int × List Byte × Parser
  | 0, r, p => (-eremoteio, r, p)
  | n + 1, r, p =>
    match r ++ (p.step protoSyn).answer with
    | a :: b :: rest =>
      if a = protoSyn ∧ b = protoAck then (0, rest, (p.step protoSyn).next)
      else synced n rest (p.step protoSyn).next
    | _ => synced n [] (p.step protoSyn).next

/-- The rest of a try of `lsepc_getsync` after its write, with `n` more tries. -/
def awaitSynAck (n : Nat) : Io Int := .read [] 2 fun
  | .error (ret, _) => if ret = 0 then .ret 0 else lsepcGetsyncLoop n
  | .ok synack =>
    if synack.getD 0 0 ≠ protoSyn ∨ synack.getD 1 0 ≠ protoAck then lsepcGetsyncLoop n else .ret 0

theorem getsyncLoop_eq (n : Nat) : lsepcGetsyncLoop (n + 1) = .write [protoSyn] fun k =>
    if k ≠ 1 then lsepcGetsyncLoop n else awaitSynAck n := by
  change lsepcSync.bind (fun r => if r = 0 then .ret 0 else lsepcGetsyncLoop n) = _
  rw [lsepcSync_eq]
  refine congrArg (Client.write [protoSyn]) (funext fun k => ?_)
  change Client.bind (if k ≠ 1 then _ else _) _ = _
  split
  · rfl
  · refine congrArg (Client.read [] 2) (funext fun r => ?_)
    rcases r with e | synack
    · rfl
    · change Client.bind (if _ then _ else _) _ = if _ then _ else _
      split <;> rfl

/-- **`lsepc_getsync` ends as worked out.** -/
theorem ends_getsync (n : Nat) (r : List Byte) (p : Parser) :
    ∃ l, Ends protoHandle (-etime) l (lsepcGetsyncLoop n) r p.waits (synced n r p).1
      (synced n r p).2.1 (synced n r p).2.2.waits := by
  induction n generalizing r p with
  | zero => exact ⟨0, .ret _ _ _⟩
  | succ n ih =>
    obtain ⟨m, hgives⟩ := gives_syn p
    rw [getsyncLoop_eq, synced]
    generalize (p.step protoSyn).next = p' at hgives ⊢
    -- the read of the try, from the bytes that are there by then
    generalize hbs : r ++ (p.step protoSyn).answer = bs
    have hwrite : ∀ {l : Nat} {a : Int} {left : List Byte} {v : Uart Unit},
        Ends protoHandle (-etime) l (awaitSynAck n) bs p'.waits a left v →
        ∃ l, Ends protoHandle (-etime) l (.write [protoSyn] fun k =>
          if k ≠ 1 then lsepcGetsyncLoop n else awaitSynAck n) r p.waits a left v := by
      intro l a left v h
      rw [← hbs] at h
      exact ⟨_, .write hgives h⟩
    rcases bs with _ | ⟨a, _ | ⟨b, rest⟩⟩
    · obtain ⟨l, hl⟩ := ih [] p'
      exact hwrite (.timeout hl)
    · obtain ⟨l, hl⟩ := ih [] p'
      exact hwrite (.took Nat.two_pos (.timeout hl))
    · dsimp only
      have hread : ∀ {l : Nat} {a' : Int} {left : List Byte} {v : Uart Unit},
          Ends protoHandle (-etime) l (if [a, b].getD 0 0 ≠ protoSyn ∨ [a, b].getD 1 0 ≠ protoAck
            then lsepcGetsyncLoop n else .ret 0) rest p'.waits a' left v →
          Ends protoHandle (-etime) (l + 1 + 1) (awaitSynAck n) (a :: b :: rest) p'.waits a' left
            v :=
        fun h => .took Nat.two_pos (.took Nat.one_lt_two h)
      by_cases hab : a = protoSyn ∧ b = protoAck
      · rw [if_pos hab]
        obtain ⟨rfl, rfl⟩ := hab
        exact hwrite (hread (.ret _ _ _))
      · rw [if_neg hab]
        obtain ⟨l, hl⟩ := ih rest p'
        have hne : [a, b].getD 0 0 ≠ protoSyn ∨ [a, b].getD 1 0 ≠ protoAck := not_and_or.mp hab
        refine hwrite (hread (l := l) ?_)
        rw [if_pos hne]
        exact hl

/-! ## 3. When the link is clean -/

/-- It returns 0, nothing is left to read, and the supervisor is at the top. -/
def Clean (n : Nat) (r : List Byte) (p : Parser) : Prop := synced n r p = (0, [], .top)

/-- **A try**: what there is to read is too short, or SYN ACK, or something else. -/
theorem clean_succ {n : Nat} {r bs : List Byte} {p : Parser}
    (hbs : r ++ (p.step protoSyn).answer = bs) : Clean (n + 1) r p ↔
      (bs.length < 2 ∧ Clean n [] (p.step protoSyn).next) ∨
      (bs = [protoSyn, protoAck] ∧ (p.step protoSyn).next = .top) ∨
      (2 ≤ bs.length ∧ bs.take 2 ≠ [protoSyn, protoAck] ∧
        Clean n (bs.drop 2) (p.step protoSyn).next) := by
  rw [Clean, synced, hbs]
  rcases bs with _ | ⟨a, _ | ⟨b, rest⟩⟩
  · simp [Clean]
  · simp [Clean]
  · have hlen : ¬ rest.length + 1 + 1 < 2 := by omega
    by_cases hab : a = protoSyn ∧ b = protoAck
    · simp [hab, hlen]
    · have htake : (a :: b :: rest).take 2 ≠ [protoSyn, protoAck] := by
        intro h
        simp only [List.take_succ_cons, List.take_zero, List.cons.injEq, and_true] at h
        exact hab h
      have hne : a :: b :: rest ≠ [protoSyn, protoAck] := by
        intro h
        rw [h] at htake
        exact htake rfl
      dsimp only
      rw [if_neg hab]
      constructor
      · exact fun h => .inr (.inr ⟨Nat.not_lt.mp hlen, htake, h⟩)
      · intro h
        rcases h with ⟨hlt, -⟩ | ⟨hbs, -⟩ | ⟨-, -, h⟩
        · exact absurd hlt hlen
        · exact absurd hbs hne
        · exact h

theorem not_clean_zero (r : List Byte) (p : Parser) : ¬ Clean 0 r p := by
  intro h
  cases congrArg Prod.fst h

/-- At the top, every byte that is there stays in the way. -/
theorem clean_top (n : Nat) (r : List Byte) : Clean n r .top ↔ n ≠ 0 ∧ r = [] := by
  induction n generalizing r with
  | zero => exact iff_of_false (not_clean_zero r .top) fun h => h.1 rfl
  | succ n ih =>
    have hlen : (r ++ [protoSyn, protoAck]).length = r.length + 2 := List.length_append
    constructor
    · intro h
      refine ⟨Nat.succ_ne_zero n, List.eq_nil_of_length_eq_zero ?_⟩
      have hanswer : r ++ (Parser.top.step protoSyn).answer = r ++ [protoSyn, protoAck] := rfl
      rcases (clean_succ hanswer).mp h with ⟨hlt, -⟩ | ⟨hbs, -⟩ | ⟨-, -, hrest⟩
      · omega
      · have := congrArg List.length hbs
        rw [hlen] at this
        exact Nat.succ.inj (Nat.succ.inj this)
      · have := congrArg List.length ((ih _).mp hrest).2
        rw [List.length_drop, hlen] at this
        simpa using this
    · intro h
      obtain ⟨-, rfl⟩ := h
      rfl

/-- Where a SYN gets NAK, one byte may be there. -/
theorem clean_nak {n : Nat} {r : List Byte} {p : Parser} (hstep : p.step protoSyn = .nak) :
    Clean (n + 1) r p ↔ r.length ≤ 1 ∧ n ≠ 0 := by
  have hanswer : (p.step protoSyn).answer = [protoNak] := by rw [hstep]; rfl
  have hnext : (p.step protoSyn).next = .top := by rw [hstep]; rfl
  have hlen : (r ++ [protoNak]).length = r.length + 1 := List.length_append
  have hne : r ++ [protoNak] ≠ [protoSyn, protoAck] := by
    intro h
    have := congrArg List.getLast? h
    simp [protoNak, protoAck] at this
  rw [clean_succ (congrArg (r ++ ·) hanswer), hnext, clean_top, clean_top, hlen,
    List.drop_eq_nil_iff, hlen]
  constructor
  · intro h
    rcases h with ⟨hlt, hn, -⟩ | ⟨hbs, -⟩ | ⟨-, -, hn, hle⟩
    · exact ⟨by omega, hn⟩
    · exact absurd hbs hne
    · exact ⟨by omega, hn⟩
  · intro h
    obtain ⟨hle, hn⟩ := h
    by_cases hr : r.length = 0
    · exact .inl ⟨by omega, hn, rfl⟩
    · refine .inr (.inr ⟨by omega, ?_, hn, by omega⟩)
      rwa [List.take_of_length_le (by omega)]

/-- Where a SYN is swallowed, what there is to read shrinks. -/
theorem clean_goes {n : Nat} {r : List Byte} {p p' : Parser} (hstep : p.step protoSyn = .goes p')
    (htop : p' ≠ .top) : Clean (n + 1) r p ↔ (r.length < 2 ∧ Clean n [] p') ∨
      (2 ≤ r.length ∧ r.take 2 ≠ [protoSyn, protoAck] ∧ Clean n (r.drop 2) p') := by
  have hanswer : r ++ (p.step protoSyn).answer = r := by
    rw [hstep]
    exact List.append_nil r
  have hnext : (p.step protoSyn).next = p' := by rw [hstep]; rfl
  rw [clean_succ hanswer, hnext]
  constructor
  · intro h
    rcases h with h | ⟨-, h⟩ | h
    · exact .inl h
    · exact absurd h htop
    · exact .inr h
  · exact fun h => h.imp_right .inr

/-- It takes a try for each byte that swallows a SYN, one for NAK and one for SYN ACK. -/
theorem clean_tries {n : Nat} {r : List Byte} {p : Parser} (htop : p ≠ .top) (h : Clean n r p) :
    p.left + 2 ≤ n := by
  induction n generalizing r p with
  | zero => exact absurd h (not_clean_zero r p)
  | succ n ih =>
    obtain ⟨hleft, hstep⟩ | ⟨p', hstep, htop', hleft⟩ := Parser.syn_step htop
    · have := ((clean_nak hstep).mp h).2
      omega
    · rcases (clean_goes hstep htop').mp h with ⟨-, h⟩ | ⟨-, -, h⟩
      · have := ih htop' h
        omega
      · have := ih htop' h
        omega

/-- What may be there to read where `left` bytes are taken before anything is answered. -/
def Repairs (left : Nat) (stale : List Byte) : Prop :=
  match left with
  | 0 => stale.length ≤ 1
  | 1 => stale.length ≤ 3 ∧ stale.take 2 ≠ [protoSyn, protoAck]
  | _ => False

/-- **Three tries inside a frame.** -/
theorem clean_iff {stale : List Byte} {p : Parser} (htop : p ≠ .top) :
    Clean syncFails stale p ↔ Repairs p.left stale := by
  have htries : Clean syncFails stale p → p.left + 2 ≤ 3 := clean_tries htop
  obtain ⟨hleft, hstep⟩ | ⟨p', hstep, htop', hleft⟩ := Parser.syn_step htop
  · rw [hleft, syncFails, clean_nak hstep]
    simp [Repairs]
  · obtain ⟨hleft', hstep'⟩ | ⟨p'', -, -, hleft'⟩ := Parser.syn_step htop'
    · rw [hleft, hleft', syncFails, clean_goes hstep htop', clean_nak hstep', clean_nak hstep',
        List.length_drop]
      change _ ↔ stale.length ≤ 3 ∧ stale.take 2 ≠ [protoSyn, protoAck]
      constructor
      · intro h
        rcases h with ⟨hlt, -⟩ | ⟨-, htake, hle, -⟩
        · refine ⟨by omega, fun htake => ?_⟩
          have := congrArg List.length htake
          simp only [List.length_take, List.length_cons, List.length_nil] at this
          omega
        · exact ⟨by omega, htake⟩
      · intro h
        obtain ⟨hle, htake⟩ := h
        by_cases hlt : stale.length < 2
        · exact .inl ⟨hlt, Nat.zero_le 1, Nat.one_ne_zero⟩
        · exact .inr ⟨by omega, htake, by omega, Nat.one_ne_zero⟩
    · rw [hleft, hleft'] at htries ⊢
      exact iff_of_false (fun h => absurd (htries h) (by omega)) id

/-! ## 4. Every run -/

/-- What `proto_handle` may be about to do. -/
inductive Stands : Uart Unit → Prop where
  | waits (p : Parser) : Stands p.prog
  | puts (out : List Byte) : Stands (.puts out)
  | call (c : Cmd) : Stands (.call c Supervisor.protoAck)

theorem stands_prog (r : Reaction) : Stands r.prog := by
  cases r with
  | goes p => exact .waits p
  | nak => exact .puts [protoNak]
  | synAck => exact .puts [protoSyn, protoAck]
  | runs c => exact .call c

section Runs

variable {σ : Type} {api : SvApi σ} {bg : σ → σ → Prop}
  {s t : Link Unit σ Byte Int Cmd (List Byte) Int} {i : Option Link.Action}

theorem stands_step (h : Stands s.server)
    (hs : Link.Timed alone (endpoint api) bg (-etime) s i t) : Stands t.server := by
  cases hs with
  | step hs =>
    cases hs with
    | begin | write | read | finish | background => exact h
    | enter => exact .waits .top
    | get hserver =>
      generalize s.server = u at h hserver
      cases h with
      | waits p =>
        rw [prog_eq] at hserver
        cases hserver
        exact stands_prog _
      | puts => exact absurd hserver Server.puts_ne_get
      | call => cases hserver
    | call hserver =>
      generalize s.server = u at h hserver
      cases h with
      | waits p =>
        rw [prog_eq] at hserver
        cases hserver
      | puts => exact absurd hserver Server.puts_ne_call
      | call =>
        cases hserver
        exact .puts _
    | put hserver =>
      generalize s.server = u at h hserver
      cases h with
      | waits p =>
        rw [prog_eq] at hserver
        cases hserver
      | puts =>
        obtain ⟨out, -, rfl⟩ := Server.puts_eq_put hserver
        exact .puts out
      | call => cases hserver
  | timeout => exact h

theorem stands_run {is : List (Option Link.Action)} (h : Stands s.server)
    (hp : Path (Link.Timed alone (endpoint api) bg (-etime)) s is t) : Stands t.server := by
  induction hp with
  | nil => exact h
  | cons hs _ ih => exact ih (stands_step h hs)

/-- `proto_handle` does not return without putting anything. -/
theorem prog_silent {m : Nat} {p : Parser} {bs : List Byte} :
    ¬ Server.Gives protoHandle m p.prog bs [] (.ret ()) := by
  intro h
  induction bs generalizing p m with
  | nil =>
    rw [prog_eq] at h
    cases h
  | cons b bs ih =>
    rw [prog_eq] at h
    cases h with
    | get h =>
      change Server.Gives _ _ (p.step b).prog _ _ _ at h
      generalize p.step b = r at h
      cases r with
      | goes p' => exact ih h
      | nak | synAck | runs => cases h

theorem stands_silent {m : Nat} {u : Uart Unit} {bs : List Byte} (hu : Stands u)
    (h : Server.Gives protoHandle m u bs [] (.ret ())) : u = .ret () ∧ bs = [] := by
  cases hu with
  | waits p => exact absurd h prog_silent
  | puts out =>
    cases out with
    | nil =>
      cases h with
      | waits => exact ⟨rfl, rfl⟩
      | again _ h => exact absurd h (prog_silent (p := .top))
    | cons b out => cases h
  | call c => cases h

theorem stands_waits (p : Parser) : Stands p.waits := by
  by_cases htop : p = .top
  · rw [htop]
    exact .puts []
  · rw [Parser.waits_eq htop]
    exact .waits p

theorem waits_waits (p : Parser) : p.waits.Waits := by
  by_cases htop : p = .top
  · rw [htop]
    trivial
  · rw [Parser.waits_eq htop, prog_eq]
    trivial

theorem alone_mute (h : Unit) (r : Int) (h' : Unit) : ¬ alone.tell h r h' := fun h => h

theorem desynced_fated (x : σ) (p : Parser) (stale : List Byte) :
    ∃ n, (desynced p.waits stale x).Fated (endpoint api).body (-etime) n
      (synced syncFails stale p).1 (synced syncFails stale p).2.1
      (synced syncFails stale p).2.2.waits := by
  obtain ⟨l, hends⟩ := ends_getsync syncFails stale p
  exact ⟨0 + l, _, 0, l, [], _, rfl, .waits (waits_waits p), by rwa [List.append_nil], rfl⟩

/-- Some run ends as worked out. -/
theorem desynced_settles (x : σ) (p : Parser) (stale : List Byte) :
    ∃ is t, Path (Link.Timed alone (endpoint api) bg (-etime)) (desynced p.waits stale x) is t ∧
      t.Settled (synced syncFails stale p).1 (synced syncFails stale p).2.1
        (synced syncFails stale p).2.2.waits := by
  obtain ⟨n, h⟩ := desynced_fated x p stale
  exact h.settles alone_mute

/-- **The handshake repairs what three tries repair**, in every run. -/
theorem resyncs_waits {x : σ} {p : Parser} {stale : List Byte} :
    Resyncs api bg x p.waits stale ↔ Clean syncFails stale p := by
  constructor
  · intro h
    obtain ⟨N, h⟩ := h
    obtain ⟨is, t, hp, hcur, -, hcli, hserver⟩ := desynced_settles x p stale
    obtain ⟨-, -, hres⟩ := h is t hp
    obtain ⟨hret, hqueue, ⟨htop, -⟩, -, -⟩ := hres _ hcur
    refine Prod.ext hret (Prod.ext (hcli.symm.trans hqueue) ?_)
    exact Parser.waits_eq_ret (hserver.symm.trans htop)
  · intro h
    obtain ⟨n, hstart⟩ := desynced_fated x p stale
    rw [h] at hstart
    refine ⟨n, fun is s hp => ?_⟩
    obtain ⟨n', hfated, hle⟩ := Link.Fated.run alone_mute hstart hp
    refine ⟨by omega, ?_, fun ret hcur => ?_⟩
    · exact (fated_ready hfated).imp_left fun hend => ⟨_, hend.1⟩
    · obtain ⟨rfl, m, out, hgives, hleft⟩ := hfated.returned hcur
      obtain ⟨hcli, rfl⟩ := List.append_eq_nil_iff.mp hleft
      have hstands : Stands s.server := stands_run (stands_waits p) hp
      obtain ⟨hserver, hsrv⟩ := stands_silent hstands hgives
      refine ⟨rfl, hcli, ⟨hserver, hsrv⟩, fun c => ?_, fun init d size g hne hd hbyte => ?_⟩
      · rw [hsrv]
        exact handle_frame c
      · rw [hcli]
        exact recvResp_feed hne hd hbyte g

/-- Called at the top, where every byte that is left over stays in the way. -/
theorem resyncs_top {x : σ} {stale : List Byte} :
    Resyncs api bg x (.ret ()) stale ↔ stale = [] :=
  (resyncs_waits (p := .top)).trans ((clean_top syncFails stale).trans (by simp [syncFails]))

end Runs

/-! ## 5. The points of a frame -/

/-- What `proto_handle` takes before it answers, where `w` of the frame of `c` has come: a
    command after SOH, and the arguments that are missing. -/
def swallows (c : Cmd) (w : List Byte) : Nat :=
  if w.length = 2 then 1 else if w.length < 4 then 0 else c.args.length - (w.length - 4)

theorem feed_after {p : Parser} {bs rest : List Byte} {u : Uart Unit} (hne : rest ≠ [])
    (h : p.prog.feed (bs ++ rest) = some u) : p.prog.feed bs = some (p.after bs).2.prog := by
  induction bs generalizing p with
  | nil => exact Server.feed_nil _
  | cons b bs ih =>
    have hcons : ∀ bs', p.prog.feed (b :: bs') = (p.step b).prog.feed bs' := by
      intro bs'
      rw [prog_eq, Server.feed_get]
    rw [List.cons_append, hcons] at h
    rw [hcons, Parser.after_cons]
    have hmore : bs ++ rest ≠ [] := fun h => hne (List.append_eq_nil_iff.mp h).2
    obtain ⟨b', bs', hbs'⟩ := List.exists_cons_of_ne_nil hmore
    -- there is more to come, so `proto_handle` has not ended
    cases hstep : p.step b with
    | goes p' =>
      rw [hstep] at h
      exact ih h
    | nak | synAck | runs =>
      rw [hstep, hbs'] at h
      cases h

theorem after_prefix {c : Cmd} {n : Nat} (hpos : 0 < n) (hlt : n < (frame c).length) :
    (Parser.top.after ((frame c).take n)).2 ≠ .top ∧
      (Parser.top.after ((frame c).take n)).2.left = swallows c ((frame c).take n) := by
  cases c with
  | setIoData data =>
    match n, hlt with
    | 1, _ | 2, _ | 3, _ | 4, _ | 5, _ | 6, _ => exact ⟨nofun, rfl⟩
  | echo arg =>
    match n, hlt with
    | 1, _ | 2, _ | 3, _ | 4, _ | 5, _ => exact ⟨nofun, rfl⟩
  | getVersion | start | stop | brk | cont | getStatus | getRegs | getIoData | getIoAddr =>
    match n, hlt with
    | 1, _ | 2, _ | 3, _ | 4, _ => exact ⟨nofun, rfl⟩

/-- **What the handshake repairs**: `proto_handle` waits after the bytes `w` of the frame of some
    command, and `stale` is there to read. -/
theorem resyncs_iff {σ : Type} {api : SvApi σ} {bg : σ → σ → Prop} {x : σ} {c : Cmd}
    {w stale : List Byte} (hw : w <+: frame c) (hne : w ≠ []) (hne' : w ≠ frame c) :
    ∃ u, protoHandle.feed w = some u ∧
      (Resyncs api bg x u stale ↔ Repairs (swallows c w) stale) := by
  obtain ⟨rest, hrest⟩ := hw
  have hmore : rest ≠ [] := by
    intro h
    rw [h, List.append_nil] at hrest
    exact hne' hrest
  have htake : w = (frame c).take w.length := by rw [← hrest, List.take_left]
  have hlt : w.length < (frame c).length := by
    have := List.length_pos_iff.mpr hmore
    rw [← hrest, List.length_append]
    omega
  obtain ⟨htop, hleft⟩ := after_prefix (List.length_pos_iff.mpr hne) hlt
  rw [← htake] at htop hleft
  have hfeed : Parser.top.prog.feed (w ++ rest) = some (.call c fun d => .puts (ackBytes d)) := by
    rw [hrest]
    exact handle_frame c
  refine ⟨_, feed_after hmore hfeed, ?_⟩
  rw [← Parser.waits_eq htop, resyncs_waits, clean_iff htop, hleft]

/-- After SOH, three bytes that are no answer. -/
theorem resyncs_soh : ∃ u, protoHandle.feed [protoEnq, protoSoh] = some u ∧
    Resyncs machineApi (fun _ _ => False) default u [protoNak, protoNak, protoNak] := by
  have h : ∃ u, protoHandle.feed [protoEnq, protoSoh] = some u ∧
      (Resyncs machineApi (fun _ _ => False) default u [protoNak, protoNak, protoNak] ↔
        Repairs (swallows .start [protoEnq, protoSoh]) [protoNak, protoNak, protoNak]) :=
    resyncs_iff ⟨_, rfl⟩ nofun nofun
  obtain ⟨u, hu, h⟩ := h
  exact ⟨u, hu, h.mpr ⟨by decide, by decide⟩⟩

/-- With both arguments missing three tries do not do, though nothing is left over. -/
theorem arguments_missing : ∃ u, protoHandle.feed [protoEnq, protoSoh, 9, protoStx] = some u ∧
    ∃ is s, Path (Link.Timed alone (endpoint machineApi) (fun _ _ => False) (-etime))
      (desynced u [] default) is s ∧ s.cur = some (.ret (-eremoteio)) := by
  obtain ⟨is, s, hp, hcur, -⟩ :=
    desynced_settles (default : Machine) (Parser.top.after [protoEnq, protoSoh, 9, protoStx]).2 []
  exact ⟨_, feed_after (p := .top) (List.cons_ne_nil protoEot []) rfl, is, s, hp, hcur⟩

end LsePc.Host
