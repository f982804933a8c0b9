/-
  File:      LsePc/Lib/Link.lean
  Subject:   Remote calls over a lossless link.

  A client and a server joined by two queues take their steps in any order, and a read of
  the client takes as much of its queue as the system hands out. Above it, the same calls
  made directly: posted, served in one step, answered. This file names nothing of any
  particular protocol.

  * `Caller`, `Rpc`, `Rpc.Step`: calls served in one step each;
  * `Link`, `Link.Step`: the same calls over the queues, symbol by symbol;
  * `Calls`: what the client program of a call must be for the server it talks to;
  * `Coupled`, `coupled_step`: the link does what the direct calls do, in a bounded number
    of steps for each call;
  * `Link.refines`, `Link.ready`, `Link.bounded`: for whole runs.
-/
import LsePc.Lib.Stream
import LsePc.Lib.Transition

namespace LsePc.Lib

variable {η σ β ε κ γ δ ρ : Type}

/-! ## 1. Direct calls -/

/-- A host that makes calls `κ` and gets answers `ρ`; it may go on from an answer in more
    than one way. -/
structure Caller (η κ ρ : Type) where
  ask : η → Option κ
  tell : η → ρ → η → Prop

/-- The call of a host that is under way. -/
inductive Slot (κ ρ : Type) where
  | idle
  | posted (c : κ)
  | answered (r : ρ)
  deriving DecidableEq

structure Rpc (η σ κ ρ : Type) where
  host : η
  slot : Slot κ ρ
  x : σ

inductive Rpc.Action where
  | post | serve | resume | background
  deriving DecidableEq, Repr

/-- The state `x` of the server also changes in the background. -/
inductive Rpc.Step (C : Caller η κ ρ) (serve : κ → σ → ρ × σ) (bg : σ → σ → Prop) :
    Rpc η σ κ ρ → Rpc.Action → Rpc η σ κ ρ → Prop where
  | post {h : η} {x : σ} {c : κ} (hask : C.ask h = some c) :
      Rpc.Step C serve bg ⟨h, .idle, x⟩ .post ⟨h, .posted c, x⟩
  | serve {h : η} {x : σ} {c : κ} :
      Rpc.Step C serve bg ⟨h, .posted c, x⟩ .serve ⟨h, .answered (serve c x).1, (serve c x).2⟩
  | resume {h h' : η} {x : σ} {r : ρ} (htell : C.tell h r h') :
      Rpc.Step C serve bg ⟨h, .answered r, x⟩ .resume ⟨h', .idle, x⟩
  | background {h : η} {x y : σ} {slot : Slot κ ρ} (hbg : bg x y) :
      Rpc.Step C serve bg ⟨h, slot, x⟩ .background ⟨h, slot, y⟩

/-! ## 2. The link -/

/-- The two ends: the client program of a call, what the server does whenever there is
    input, and its handlers. -/
structure Protocol (σ β ε κ γ δ ρ : Type) where
  client : κ → Client β ε ρ
  body : Server β γ δ Unit
  handler : γ → σ → δ × σ

/-- `cur` is the call under way; the server that has returned waits for input. -/
structure Link (η σ β ε γ δ ρ : Type) where
  host : η
  cur : Option (Client β ε ρ)
  toServer : List β
  toClient : List β
  server : Server β γ δ Unit
  x : σ

inductive Link.Action where
  | begin | write | read | enter | get | call | put | finish | background
  deriving DecidableEq, Repr

inductive Link.Step (C : Caller η κ ρ) (Q : Protocol σ β ε κ γ δ ρ) (bg : σ → σ → Prop) :
    Link η σ β ε γ δ ρ → Link.Action → Link η σ β ε γ δ ρ → Prop where
  | begin {s : Link η σ β ε γ δ ρ} {c : κ} (hcur : s.cur = none) (hask : C.ask s.host = some c) :
      Link.Step C Q bg s .begin { s with cur := some (Q.client c) }
  | write {s : Link η σ β ε γ δ ρ} {bs : List β} {k : Nat → Client β ε ρ}
      (hcur : s.cur = some (.write bs k)) :
      Link.Step C Q bg s .write
        { s with cur := some (k bs.length), toServer := s.toServer ++ bs }
  /-- A read returns a part of what is there, at least one symbol. -/
  | read {s : Link η σ β ε γ δ ρ} {buf chunk rest : List β} {size : Nat}
      {k : Except (ε × List β) (List β) → Client β ε ρ} (hcur : s.cur = some (.read buf size k))
      (hq : s.toClient = chunk ++ rest) (hne : chunk ≠ [])
      (hle : buf.length + chunk.length ≤ size) :
      Link.Step C Q bg s .read
        { s with cur := some ((Client.read buf size k).got chunk), toClient := rest }
  | enter {s : Link η σ β ε γ δ ρ} (hserver : s.server = .ret ()) (hq : s.toServer ≠ []) :
      Link.Step C Q bg s .enter { s with server := Q.body }
  | get {s : Link η σ β ε γ δ ρ} {b : β} {bs : List β} {k : β → Server β γ δ Unit}
      (hserver : s.server = .get k) (hq : s.toServer = b :: bs) :
      Link.Step C Q bg s .get { s with server := k b, toServer := bs }
  | call {s : Link η σ β ε γ δ ρ} {c : γ} {k : δ → Server β γ δ Unit}
      (hserver : s.server = .call c k) :
      Link.Step C Q bg s .call
        { s with server := k (Q.handler c s.x).1, x := (Q.handler c s.x).2 }
  | put {s : Link η σ β ε γ δ ρ} {b : β} {k : Server β γ δ Unit}
      (hserver : s.server = .put b k) :
      Link.Step C Q bg s .put { s with server := k, toClient := s.toClient ++ [b] }
  | finish {s : Link η σ β ε γ δ ρ} {r : ρ} {h : η} (hcur : s.cur = some (.ret r))
      (htell : C.tell s.host r h) :
      Link.Step C Q bg s .finish { s with cur := none, host := h }
  | background {s : Link η σ β ε γ δ ρ} {x : σ} (hbg : bg s.x x) :
      Link.Step C Q bg s .background { s with x := x }

/-- Between two calls, with nothing under way on the link. -/
structure Link.Quiet (s : Link η σ β ε γ δ ρ) : Prop where
  cur : s.cur = none
  toServer : s.toServer = []
  toClient : s.toClient = []
  server : s.server = .ret ()

/-! ## 3. Client programs that make their call -/

/-- A program that makes the call `c` and returns `f` of its result: it may first ask the
    server for things that are no call. `n` bounds the steps of the link. -/
inductive Calls (Q : Protocol σ β ε κ γ δ ρ) (c : γ) (f : δ → ρ) : Nat → Client β ε ρ → Prop where
  | ask {n : Nat} {req resp : List β} {k : Nat → Client β ε ρ} {p : Client β ε ρ}
      (hreq : req ≠ []) (hresp : resp ≠ []) (hserve : Q.body.feed req = some (.puts resp))
      (hfeed : (k req.length).feed resp = some p) (h : Calls Q c f n p) :
      Calls Q c f (n + 2 * resp.length + req.length + 2) (.write req k)
  | call {n : Nat} {req : List β} {resp : δ → List β} {k : Nat → Client β ε ρ}
      (hreq : req ≠ []) (hserve : Q.body.feed req = some (.call c fun d => .puts (resp d)))
      (hresp : ∀ d, resp d ≠ []) (hlen : ∀ x, (resp (Q.handler c x).1).length ≤ n)
      (hfeed : ∀ x, (k req.length).feed (resp (Q.handler c x).1) =
        some (.ret (f (Q.handler c x).1))) :
      Calls Q c f (2 * n + req.length + 4) (.write req k)

/-- The server on its way to `u`, on the input that is there; in the main loop it has yet to
    notice that input. -/
inductive Reads (Q : Protocol σ β ε κ γ δ ρ) :
    Nat → Server β γ δ Unit → List β → Server β γ δ Unit → Prop where
  | inside {p u : Server β γ δ Unit} {bs : List β} (h : p.feed bs = some u) :
      Reads Q bs.length p bs u
  | waiting {u : Server β γ δ Unit} {bs : List β} (hne : bs ≠ [])
      (h : Q.body.feed bs = some u) : Reads Q (bs.length + 1) (.ret ()) bs u

/-- **Where a link stands while a call is under way**: the direct call it stands for, and a
    bound on the steps left. -/
inductive Coupled (C : Caller η κ ρ) (Q : Protocol σ β ε κ γ δ ρ) (cmd : κ → γ)
    (decode : κ → δ → ρ) : Nat → Link η σ β ε γ δ ρ → Rpc η σ κ ρ → Prop where
  | quiet {s : Link η σ β ε γ δ ρ} (h : s.Quiet) :
      Coupled C Q cmd decode 0 s ⟨s.host, .idle, s.x⟩
  /-- The answer to a question, or nothing, is on its way. -/
  | asking {s : Link η σ β ε γ δ ρ} {c : κ} {n : Nat} {p p' : Client β ε ρ} {out : List β}
      (hask : C.ask s.host = some c) (hcur : s.cur = some p) (hq : s.toServer = [])
      (hserver : s.server = .puts out)
      (hfeed : p.feed (s.toClient ++ out) = some p') (h : Calls Q (cmd c) (decode c) n p') :
      Coupled C Q cmd decode (s.toClient.length + 2 * out.length + n) s ⟨s.host, .posted c, s.x⟩
  /-- A question is on its way. -/
  | asked {s : Link η σ β ε γ δ ρ} {c : κ} {n e : Nat} {p p' : Client β ε ρ} {resp : List β}
      (hask : C.ask s.host = some c) (hcur : s.cur = some p) (hq : s.toClient = [])
      (hne : s.toServer ≠ [])
      (hserver : Reads Q e s.server s.toServer (.puts resp)) (hresp : resp ≠ [])
      (hfeed : p.feed resp = some p') (h : Calls Q (cmd c) (decode c) n p') :
      Coupled C Q cmd decode (e + 2 * resp.length + n) s ⟨s.host, .posted c, s.x⟩
  /-- The call is on its way. -/
  | calling {s : Link η σ β ε γ δ ρ} {c : κ} {n e : Nat} {p : Client β ε ρ} {resp : δ → List β}
      (hask : C.ask s.host = some c) (hcur : s.cur = some p) (hq : s.toClient = [])
      (hserver : Reads Q e s.server s.toServer (.call (cmd c) fun d => .puts (resp d)))
      (hresp : ∀ d, resp d ≠ []) (hlen : ∀ x, (resp (Q.handler (cmd c) x).1).length ≤ n)
      (hfeed : ∀ x, p.feed (resp (Q.handler (cmd c) x).1) =
        some (.ret (decode c (Q.handler (cmd c) x).1))) :
      Coupled C Q cmd decode (e + 2 * n + 2) s ⟨s.host, .posted c, s.x⟩
  /-- The answer to the call is on its way. -/
  | called {s : Link η σ β ε γ δ ρ} {c : κ} {r : ρ} {p : Client β ε ρ} {out : List β}
      (hask : C.ask s.host = some c) (hcur : s.cur = some p) (hq : s.toServer = [])
      (hserver : s.server = .puts out)
      (hfeed : p.feed (s.toClient ++ out) = some (.ret r)) :
      Coupled C Q cmd decode (s.toClient.length + 2 * out.length + 1) s
        ⟨s.host, .answered r, s.x⟩

/-! ## 4. The steps -/

/-- A call served in one step. -/
def Protocol.serve (Q : Protocol σ β ε κ γ δ ρ) (cmd : κ → γ) (decode : κ → δ → ρ) (c : κ)
    (x : σ) : ρ × σ :=
  (decode c (Q.handler (cmd c) x).1, (Q.handler (cmd c) x).2)

/-- What a step of the link takes from the bound. -/
def Link.Action.cost : Link.Action → Nat
  | .background => 0
  | _ => 1

/-- What the start of a call adds to it. -/
def Link.Action.gain (N : Nat) : Link.Action → Nat
  | .begin => N + 1
  | _ => 0

section Steps

variable {C : Caller η κ ρ} {Q : Protocol σ β ε κ γ δ ρ} {bg : σ → σ → Prop}
  {cmd : κ → γ} {decode : κ → δ → ρ} {N : Nat}

/-- The link after a step, for a link that stood for `a` with the bound `n`. -/
def Advances (C : Caller η κ ρ) (Q : Protocol σ β ε κ γ δ ρ) (bg : σ → σ → Prop)
    (cmd : κ → γ) (decode : κ → δ → ρ) (N n : Nat) (a : Rpc η σ κ ρ) (i : Link.Action)
    (t : Link η σ β ε γ δ ρ) : Prop :=
  ∃ n' a', Coupled C Q cmd decode n' t a' ∧ n' + i.cost ≤ n + i.gain N ∧
    (a' = a ∨ ∃ k, Rpc.Step C (Q.serve cmd decode) bg a k a')

variable {s t : Link η σ β ε γ δ ρ} {i : Link.Action}

theorem feed_rest {buf chunk rest out : List β} {size : Nat}
    {k : Except (ε × List β) (List β) → Client β ε ρ} {q : Client β ε ρ} (hne : chunk ≠ [])
    (hle : buf.length + chunk.length ≤ size)
    (h : (Client.read buf size k).feed ((chunk ++ rest) ++ out) = some q) :
    ((Client.read buf size k).got chunk).feed (rest ++ out) = some q := by
  rw [List.append_assoc, Client.feed_append, Client.feed_chunk hne hle] at h
  exact h

theorem quiet_step (hcalls : ∀ c, ∃ n ≤ N, Calls Q (cmd c) (decode c) n (Q.client c))
    (h : s.Quiet) (hs : Link.Step C Q bg s i t) :
    Advances C Q bg cmd decode N 0 ⟨s.host, .idle, s.x⟩ i t := by
  obtain ⟨hnone, hsrv, hcli, hret⟩ := h
  cases hs with
  | begin hcur hask =>
    rename_i c
    obtain ⟨n, hn, hc⟩ := hcalls c
    have hfeed : (Q.client c).feed (s.toClient ++ []) = some (Q.client c) := by simp [hcli]
    have hputs : s.server = .puts [] := hret
    refine ⟨_, _, .asking hask rfl hsrv hputs hfeed hc, ?_, .inr ⟨.post, .post hask⟩⟩
    simp only [hcli, Link.Action.cost, Link.Action.gain, List.length_nil]
    omega
  | write hcur => simp [hnone] at hcur
  | read hcur => simp [hnone] at hcur
  | enter hserver hq => exact absurd hsrv hq
  | get hserver => simp [hret] at hserver
  | call hserver => simp [hret] at hserver
  | put hserver => simp [hret] at hserver
  | finish hcur => simp [hnone] at hcur
  | background hbg =>
    exact ⟨0, _, .quiet ⟨hnone, hsrv, hcli, hret⟩, Nat.le_refl _,
      .inr ⟨.background, .background hbg⟩⟩

/-- A client that has been given all its input. -/
theorem feed_ret {r : ρ} {bs : List β} {q : Client β ε ρ} (h : (Client.ret r).feed bs = some q) :
    bs = [] ∧ q = .ret r := by
  cases bs with
  | nil => exact ⟨rfl, by simpa [Client.feed] using h.symm⟩
  | cons b bs => simp [Client.feed] at h

theorem feed_write {ws bs : List β} {k : Nat → Client β ε ρ} {q : Client β ε ρ}
    (h : (Client.write ws k).feed bs = some q) : bs = [] ∧ q = .write ws k := by
  cases bs with
  | nil => exact ⟨rfl, by simpa [Client.feed] using h.symm⟩
  | cons b bs => simp [Client.feed] at h

theorem asking_step {c : κ} {n : Nat} {p p' : Client β ε ρ} {out : List β}
    (hask : C.ask s.host = some c) (hcur : s.cur = some p) (hq : s.toServer = [])
    (hserver : s.server = .puts out)
    (hfeed : p.feed (s.toClient ++ out) = some p') (h : Calls Q (cmd c) (decode c) n p')
    (hs : Link.Step C Q bg s i t) :
    Advances C Q bg cmd decode N (s.toClient.length + 2 * out.length + n)
      ⟨s.host, .posted c, s.x⟩ i t := by
  cases hs with
  | begin hnone => simp [hcur] at hnone
  | write hw =>
    rw [hcur] at hw
    obtain rfl := Option.some.inj hw
    obtain ⟨hnil, rfl⟩ := feed_write hfeed
    obtain ⟨hcli, rfl⟩ := List.append_eq_nil_iff.mp hnil
    -- the request is all the server finds in its main loop
    have hwait : ∀ {u req}, req ≠ [] → Q.body.feed req = some u →
        Reads Q (req.length + 1) s.server (s.toServer ++ req) u := by
      intro u req hne hu
      rw [hserver, hq]
      exact .waiting hne hu
    cases h with
    | ask hreq hresp hserve hfeed h =>
      refine ⟨_, _, .asked hask rfl hcli (by simp [hreq]) (hwait hreq hserve) hresp hfeed h, ?_,
        .inl rfl⟩
      simp only [Link.Action.cost]
      omega
    | call hreq hserve hresp hlen hfeed =>
      refine ⟨_, _, .calling hask rfl hcli (hwait hreq hserve) hresp hlen hfeed, ?_, .inl rfl⟩
      simp only [Link.Action.cost]
      omega
  | read hr hcli hne hle =>
    rw [hcur] at hr
    obtain rfl := Option.some.inj hr
    rw [hcli] at hfeed
    refine ⟨_, _, .asking hask rfl hq hserver (feed_rest hne hle hfeed) h, ?_, .inl rfl⟩
    have hpos := List.length_pos_iff.mpr hne
    simp only [hcli, List.length_append, Link.Action.cost, Link.Action.gain]
    omega
  | enter _ hne => exact absurd hq hne
  | get hget => exact absurd (hserver.symm.trans hget) Server.puts_ne_get
  | call hcall => exact absurd (hserver.symm.trans hcall) Server.puts_ne_call
  | put hput =>
    obtain ⟨out', rfl, rfl⟩ := Server.puts_eq_put (hserver.symm.trans hput)
    refine ⟨_, _, .asking hask hcur hq rfl (by simpa using hfeed) h, ?_, .inl rfl⟩
    simp only [List.length_append, List.length_cons, List.length_nil, Link.Action.cost,
      Link.Action.gain]
    omega
  | finish hret =>
    rw [hcur] at hret
    obtain rfl := Option.some.inj hret
    obtain ⟨-, rfl⟩ := feed_ret hfeed
    cases h
  | background hbg =>
    exact ⟨_, _, .asking hask hcur hq hserver hfeed h, Nat.le_refl _,
      .inr ⟨.background, .background hbg⟩⟩

/-! ### A server that reads -/

theorem Reads.enter {e : Nat} {u : Server β γ δ Unit} {bs : List β}
    (h : Reads Q e (.ret ()) bs u) (hne : bs ≠ []) :
    ∃ e', e = e' + 1 ∧ Reads Q e' Q.body bs u := by
  cases h with
  | inside h =>
    obtain ⟨b, bs, rfl⟩ := List.exists_cons_of_ne_nil hne
    simp [Server.feed] at h
  | waiting _ h => exact ⟨_, rfl, .inside h⟩

theorem Reads.get {e : Nat} {u : Server β γ δ Unit} {k : β → Server β γ δ Unit} {b : β}
    {bs : List β} (h : Reads Q e (.get k) (b :: bs) u) :
    ∃ e', e = e' + 1 ∧ Reads Q e' (k b) bs u := by
  cases h with
  | inside h => exact ⟨bs.length, rfl, .inside h⟩

theorem Reads.done {e : Nat} {p u : Server β γ δ Unit} (h : Reads Q e p [] u) : e = 0 ∧ p = u := by
  cases h with
  | inside h => exact ⟨rfl, by simpa using h⟩
  | waiting hne => exact absurd rfl hne

/-- While there is input the server is in its main loop or waits for a symbol. -/
theorem Reads.hungry {e : Nat} {p u : Server β γ δ Unit} {bs : List β} (h : Reads Q e p bs u)
    (hne : bs ≠ []) : p = .ret () ∨ ∃ k, p = .get k := by
  cases h with
  | inside h =>
    obtain ⟨b, bs, rfl⟩ := List.exists_cons_of_ne_nil hne
    obtain ⟨k, rfl, -⟩ := Server.feed_cons h
    exact .inr ⟨k, rfl⟩
  | waiting => exact .inl rfl

theorem asked_step {c : κ} {n e : Nat} {p p' : Client β ε ρ} {resp : List β}
    (hask : C.ask s.host = some c) (hcur : s.cur = some p) (hq : s.toClient = [])
    (hne : s.toServer ≠ [])
    (hserver : Reads Q e s.server s.toServer (.puts resp)) (hresp : resp ≠ [])
    (hfeed : p.feed resp = some p') (h : Calls Q (cmd c) (decode c) n p')
    (hs : Link.Step C Q bg s i t) :
    Advances C Q bg cmd decode N (e + 2 * resp.length + n) ⟨s.host, .posted c, s.x⟩ i t := by
  obtain ⟨b, bs, rfl⟩ := List.exists_cons_of_ne_nil hresp
  obtain ⟨buf, size, k, rfl, -⟩ := Client.feed_cons hfeed
  cases hs with
  | begin hnone => simp [hcur] at hnone
  | write hw => simp [hcur] at hw
  | read _ hcli hne' => exact absurd (List.append_eq_nil_iff.mp (hcli.symm.trans hq)).1 hne'
  | enter hret =>
    rw [hret] at hserver
    obtain ⟨e', rfl, hin⟩ := hserver.enter hne
    refine ⟨_, _, .asked hask hcur hq hne hin hresp hfeed h, ?_, .inl rfl⟩
    simp only [Link.Action.cost, Link.Action.gain]
    omega
  | get hget hin =>
    rename_i b' rest k'
    rw [hget, hin] at hserver
    obtain ⟨e', rfl, hin⟩ := hserver.get
    by_cases hrest : rest = []
    · -- that was all, and the server goes on to its answer
      subst hrest
      obtain ⟨rfl, hk⟩ := hin.done
      refine ⟨_, _, .asking hask hcur rfl hk (by simpa [hq] using hfeed) h, ?_, .inl rfl⟩
      simp only [hq, List.length_nil, Link.Action.cost, Link.Action.gain]
      omega
    · refine ⟨_, _, .asked hask hcur hq hrest hin hresp hfeed h, ?_, .inl rfl⟩
      simp only [Link.Action.cost, Link.Action.gain]
      omega
  | call hcall => rcases hserver.hungry hne with h | ⟨k, h⟩ <;> simp [hcall] at h
  | put hput => rcases hserver.hungry hne with h | ⟨k, h⟩ <;> simp [hput] at h
  | finish hret => simp [hcur] at hret
  | background hbg =>
    exact ⟨_, _, .asked hask hcur hq hne hserver hresp hfeed h, Nat.le_refl _,
      .inr ⟨.background, .background hbg⟩⟩

theorem calling_step {c : κ} {n e : Nat} {p : Client β ε ρ} {resp : δ → List β}
    (hask : C.ask s.host = some c) (hcur : s.cur = some p) (hq : s.toClient = [])
    (hserver : Reads Q e s.server s.toServer (.call (cmd c) fun d => .puts (resp d)))
    (hresp : ∀ d, resp d ≠ []) (hlen : ∀ x, (resp (Q.handler (cmd c) x).1).length ≤ n)
    (hfeed : ∀ x, p.feed (resp (Q.handler (cmd c) x).1) =
      some (.ret (decode c (Q.handler (cmd c) x).1)))
    (hs : Link.Step C Q bg s i t) :
    Advances C Q bg cmd decode N (e + 2 * n + 2) ⟨s.host, .posted c, s.x⟩ i t := by
  obtain ⟨b, bs, hd⟩ := List.exists_cons_of_ne_nil (hresp (Q.handler (cmd c) s.x).1)
  obtain ⟨buf, size, k, hp, -⟩ := Client.feed_cons (hd ▸ hfeed s.x)
  cases hs with
  | begin hnone => simp [hcur] at hnone
  | write hw => simp [hcur, hp] at hw
  | read _ hcli hne' => exact absurd (List.append_eq_nil_iff.mp (hcli.symm.trans hq)).1 hne'
  | enter hret hne =>
    rw [hret] at hserver
    obtain ⟨e', rfl, hin⟩ := hserver.enter hne
    refine ⟨_, _, .calling hask hcur hq hin hresp hlen hfeed, ?_, .inl rfl⟩
    simp only [Link.Action.cost, Link.Action.gain]
    omega
  | get hget hin =>
    rw [hget, hin] at hserver
    obtain ⟨e', rfl, hin⟩ := hserver.get
    refine ⟨_, _, .calling hask hcur hq hin hresp hlen hfeed, ?_, .inl rfl⟩
    simp only [Link.Action.cost, Link.Action.gain]
    omega
  | call hcall =>
    by_cases hne : s.toServer = []
    · rw [hcall, hne] at hserver
      obtain ⟨rfl, heq⟩ := hserver.done
      obtain ⟨rfl, rfl⟩ := Server.call.inj heq
      have hanswer : p.feed (s.toClient ++ resp (Q.handler (cmd c) s.x).1) =
          some (.ret (decode c (Q.handler (cmd c) s.x).1)) := by
        rw [hq]
        exact hfeed s.x
      refine ⟨_, _, .called hask hcur hne rfl hanswer, ?_, .inr ⟨.serve, .serve⟩⟩
      have hle := hlen s.x
      simp only [hq, List.length_nil, Link.Action.cost, Link.Action.gain]
      omega
    · rcases hserver.hungry hne with h | ⟨k, h⟩ <;> simp [hcall] at h
  | put hput =>
    by_cases hne : s.toServer = []
    · rw [hput, hne] at hserver
      exact absurd hserver.done.2 (by simp)
    · rcases hserver.hungry hne with h | ⟨k, h⟩ <;> simp [hput] at h
  | finish hret => simp [hcur, hp] at hret
  | background hbg =>
    exact ⟨_, _, .calling hask hcur hq hserver hresp hlen hfeed, Nat.le_refl _,
      .inr ⟨.background, .background hbg⟩⟩

theorem called_step {c : κ} {r : ρ} {p : Client β ε ρ} {out : List β}
    (hask : C.ask s.host = some c) (hcur : s.cur = some p)
    (hq : s.toServer = []) (hserver : s.server = .puts out)
    (hfeed : p.feed (s.toClient ++ out) = some (.ret r)) (hs : Link.Step C Q bg s i t) :
    Advances C Q bg cmd decode N (s.toClient.length + 2 * out.length + 1)
      ⟨s.host, .answered r, s.x⟩ i t := by
  cases hs with
  | begin hnone => simp [hcur] at hnone
  | write hw =>
    rw [hcur] at hw
    obtain rfl := Option.some.inj hw
    exact absurd (feed_write hfeed).2 (by simp)
  | read hr hcli hne hle =>
    rw [hcur] at hr
    obtain rfl := Option.some.inj hr
    rw [hcli] at hfeed
    refine ⟨_, _, .called hask rfl hq hserver (feed_rest hne hle hfeed), ?_, .inl rfl⟩
    have hpos := List.length_pos_iff.mpr hne
    simp only [hcli, List.length_append, Link.Action.cost, Link.Action.gain]
    omega
  | enter _ hne => exact absurd hq hne
  | get hget => exact absurd (hserver.symm.trans hget) Server.puts_ne_get
  | call hcall => exact absurd (hserver.symm.trans hcall) Server.puts_ne_call
  | put hput =>
    obtain ⟨out', rfl, rfl⟩ := Server.puts_eq_put (hserver.symm.trans hput)
    refine ⟨_, _, .called hask hcur hq rfl (by simpa using hfeed), ?_, .inl rfl⟩
    simp only [List.length_append, List.length_cons, List.length_nil, Link.Action.cost,
      Link.Action.gain]
    omega
  | finish hret htell =>
    rw [hcur] at hret
    obtain rfl := Option.some.inj hret
    obtain ⟨hnil, heq⟩ := feed_ret hfeed
    obtain rfl := Client.ret.inj heq
    obtain ⟨hcli, rfl⟩ := List.append_eq_nil_iff.mp hnil
    refine ⟨_, _, .quiet ⟨rfl, hq, hcli, hserver⟩, ?_, .inr ⟨.resume, .resume htell⟩⟩
    simp only [hcli, List.length_nil, Link.Action.cost, Link.Action.gain]
    omega
  | background hbg =>
    exact ⟨_, _, .called hask hcur hq hserver hfeed, Nat.le_refl _,
      .inr ⟨.background, .background hbg⟩⟩

/-- **One step of the link**: it is a step of the direct calls or leaves them where they are,
    and it uses up the bound. -/
theorem coupled_step (hcalls : ∀ c, ∃ n ≤ N, Calls Q (cmd c) (decode c) n (Q.client c))
    {n : Nat} {a : Rpc η σ κ ρ} (h : Coupled C Q cmd decode n s a)
    (hs : Link.Step C Q bg s i t) : Advances C Q bg cmd decode N n a i t := by
  cases h with
  | quiet h => exact quiet_step hcalls h hs
  | asking hask hcur hq hserver hfeed h => exact asking_step hask hcur hq hserver hfeed h hs
  | asked hask hcur hq hne hserver hresp hfeed h =>
    exact asked_step hask hcur hq hne hserver hresp hfeed h hs
  | calling hask hcur hq hserver hresp hlen hfeed =>
    exact calling_step hask hcur hq hserver hresp hlen hfeed hs
  | called hask hcur hq hserver hfeed => exact called_step hask hcur hq hserver hfeed hs

/-- **No deadlock**: unless the host is done, one of the two ends can take a step. -/
theorem Coupled.ready (htell : ∀ h c r, C.ask h = some c → ∃ h', C.tell h r h') {n : Nat}
    {a : Rpc η σ κ ρ} (h : Coupled C Q cmd decode n s a) :
    (s.Quiet ∧ C.ask s.host = none) ∨ ∃ i t, i ≠ .background ∧ Link.Step C Q bg s i t := by
  -- the server reads on, or the client reads what is there
  have hserver : ∀ {e u}, Reads Q e s.server s.toServer u → s.toServer ≠ [] →
      ∃ i t, i ≠ .background ∧ Link.Step C Q bg s i t := by
    intro e u hr hne
    rcases hr.hungry hne with h | ⟨k, h⟩
    · exact ⟨.enter, _, by simp, .enter h hne⟩
    · obtain ⟨b, bs, hbs⟩ := List.exists_cons_of_ne_nil hne
      exact ⟨.get, _, by simp, .get h hbs⟩
  have hclient : ∀ {p q : Client β ε ρ} {out : List β}, s.cur = some p → s.server = .puts out →
      p.feed (s.toClient ++ out) = some q →
      (s.toClient = [] ∧ out = [] ∧ p = q) ∨ ∃ i t, i ≠ .background ∧ Link.Step C Q bg s i t := by
    intro p q out hcur hputs hfeed
    rcases hcli : s.toClient with _ | ⟨b, rest⟩
    · rcases out with _ | ⟨b, out⟩
      · exact .inl ⟨rfl, rfl, by simpa [hcli] using hfeed⟩
      · exact .inr ⟨.put, _, by simp, .put hputs⟩
    · rw [hcli] at hfeed
      obtain ⟨buf, size, k, rfl, hlt⟩ := Client.feed_cons hfeed
      have hq : s.toClient = [b] ++ rest := hcli
      exact .inr ⟨.read, _, by simp, .read hcur hq (by simp) hlt⟩
  cases h with
  | quiet h =>
    rcases hask : C.ask s.host with _ | c
    · exact .inl ⟨h, rfl⟩
    · exact .inr ⟨.begin, _, by simp, .begin h.cur hask⟩
  | asking hask hcur hq hputs hfeed h =>
    rcases hclient hcur hputs hfeed with ⟨-, -, rfl⟩ | hstep
    · cases h with
      | ask => exact .inr ⟨.write, _, by simp, .write hcur⟩
      | call => exact .inr ⟨.write, _, by simp, .write hcur⟩
    · exact .inr hstep
  | asked hask hcur hq hne hr => exact .inr (hserver hr hne)
  | calling hask hcur hq hr =>
    by_cases hne : s.toServer = []
    · rw [hne] at hr
      exact .inr ⟨.call, _, by simp, .call hr.done.2⟩
    · exact .inr (hserver hr hne)
  | called hask hcur hq hputs hfeed =>
    rcases hclient hcur hputs hfeed with ⟨-, -, rfl⟩ | hstep
    · obtain ⟨h', hh⟩ := htell s.host _ _ hask
      exact .inr ⟨.finish, _, by simp, .finish hcur hh⟩
    · exact .inr hstep

/-- Between two calls nothing is left on the link. -/
theorem Coupled.quiet_of_none {n : Nat} {a : Rpc η σ κ ρ} (h : Coupled C Q cmd decode n s a)
    (hcur : s.cur = none) : s.Quiet ∧ a = ⟨s.host, .idle, s.x⟩ := by
  cases h with
  | quiet h => exact ⟨h, rfl⟩
  | asking _ h | asked _ h | calling _ h | called _ h => simp [hcur] at h

theorem Coupled.same {n : Nat} {a : Rpc η σ κ ρ} (h : Coupled C Q cmd decode n s a) :
    a.host = s.host ∧ a.x = s.x := by
  cases h <;> exact ⟨rfl, rfl⟩

theorem Coupled.idle_iff {n : Nat} {a : Rpc η σ κ ρ} (h : Coupled C Q cmd decode n s a) :
    a.slot = .idle ↔ s.cur = none := by
  cases h with
  | quiet h => simp [h.cur]
  | asking _ h | asked _ h | calling _ h | called _ h => simp [h]

/-- The link begins a call where the direct calls post one. -/
theorem begins_post (hs : Link.Step C Q bg s .begin t) {n n' : Nat} {a a' : Rpc η σ κ ρ}
    (h : Coupled C Q cmd decode n s a) (h' : Coupled C Q cmd decode n' t a')
    (ha : a' = a ∨ ∃ k, Rpc.Step C (Q.serve cmd decode) bg a k a') :
    Rpc.Step C (Q.serve cmd decode) bg a .post a' := by
  cases hs with
  | begin hcur hask =>
    have hidle : a.slot = .idle := h.idle_iff.mpr hcur
    have hbusy : a'.slot ≠ .idle := fun he => by simpa using h'.idle_iff.mp he
    rcases ha with rfl | ⟨k, hk⟩
    · exact absurd hidle hbusy
    · cases hk with
      | post hask => exact .post hask
      | serve => cases hidle
      | resume => exact absurd rfl hbusy
      | background => exact absurd hidle hbusy

theorem Coupled.asks {n : Nat} {a : Rpc η σ κ ρ} (h : Coupled C Q cmd decode n s a)
    (hcur : s.cur ≠ none) : ∃ c, C.ask s.host = some c := by
  cases h with
  | quiet h => exact absurd h.cur hcur
  | asking hask | asked hask | calling hask | called hask => exact ⟨_, hask⟩

end Steps

/-! ## 5. Runs -/

/-- Both queues empty, the server waiting, and the host before its first call. -/
def Link.start (h : η) (x : σ) : Link η σ β ε γ δ ρ := ⟨h, none, [], [], .ret (), x⟩

section Runs

variable {C : Caller η κ ρ} {Q : Protocol σ β ε κ γ δ ρ} {bg : σ → σ → Prop}
  {cmd : κ → γ} {decode : κ → δ → ρ} {N : Nat} {h : η} {x : σ}

/-- **The link refines the direct calls**: every state of a run on the link stands for a state
    of a run with direct calls. -/
theorem Link.refines (hcalls : ∀ c, ∃ n ≤ N, Calls Q (cmd c) (decode c) n (Q.client c))
    {s : Link η σ β ε γ δ ρ} (hr : Reach (· = Link.start h x) (Link.Step C Q bg) s) :
    ∃ a, Reach (· = ⟨h, .idle, x⟩) (Rpc.Step C (Q.serve cmd decode) bg) a ∧
      ∃ n, Coupled C Q cmd decode n s a := by
  refine Reach.simulate (R := fun s a => ∃ n, Coupled C Q cmd decode n s a) ?_ ?_ hr
  · intro s he
    obtain rfl := he
    exact ⟨_, rfl, 0, .quiet ⟨rfl, rfl, rfl, rfl⟩⟩
  · intro s i t a h hs
    obtain ⟨n, hc⟩ := h
    obtain ⟨n', a', hc', -, rfl | ⟨k, hk⟩⟩ := coupled_step hcalls hc hs
    · exact .inl ⟨n', hc'⟩
    · exact .inr ⟨k, a', hk, n', hc'⟩

theorem Link.Action.cost_cons (i : Link.Action) (is : List Link.Action) :
    ((i :: is).filter (· ≠ .background)).length =
      i.cost + (is.filter (· ≠ .background)).length := by
  cases i <;> simp [cost, Nat.add_comm]

theorem Link.Action.gain_eq_zero {i : Link.Action} (hi : i ≠ .begin) : i.gain N = 0 := by
  cases i <;> first | rfl | exact absurd rfl hi

theorem Link.Action.cost_eq_one {i : Link.Action} (hi : i ≠ .background) : i.cost = 1 := by
  cases i <;> first | rfl | exact absurd rfl hi

/-! ### Hosts with finitely many calls -/

section Finite

variable {left : η → Nat} {s t : Link η σ β ε γ δ ρ} {i : Link.Action}

/-- The calls of the host that are yet to begin. -/
def Link.pending (left : η → Nat) (s : Link η σ β ε γ δ ρ) : Nat :=
  if s.cur.isNone then left s.host else left s.host - 1

theorem pending_step
    (hleft : ∀ h c, C.ask h = some c → 0 < left h ∧ ∀ r h', C.tell h r h' → left h' < left h)
    {n : Nat} {a : Rpc η σ κ ρ} (hc : Coupled C Q cmd decode n s a)
    (hs : Link.Step C Q bg s i t) :
    i.gain N + (N + 1) * t.pending left ≤ (N + 1) * s.pending left := by
  cases hs with
  | begin hcur hask =>
    obtain ⟨l, hl⟩ := Nat.exists_eq_add_one_of_ne_zero (Nat.pos_iff_ne_zero.mp (hleft _ _ hask).1)
    simp [Link.Action.gain, Link.pending, hcur, hl, Nat.mul_add, Nat.add_comm]
  | finish hcur hh =>
    obtain ⟨c, hask⟩ := hc.asks (by simp [hcur])
    have hlt := (hleft _ _ hask).2 _ _ hh
    simp only [Link.Action.gain, Link.pending, hcur, Option.isNone_none, Option.isNone_some,
      if_true, Bool.false_eq_true, if_false, Nat.zero_add]
    exact Nat.mul_le_mul_left _ (by omega)
  | background => simp [Link.Action.gain, Link.pending]
  | write hcur | read hcur => simp [Link.Action.gain, Link.pending, hcur]
  | enter | get | call | put => simp [Link.Action.gain, Link.pending]

theorem potential_step
    (hleft : ∀ h c, C.ask h = some c → 0 < left h ∧ ∀ r h', C.tell h r h' → left h' < left h)
    (hcalls : ∀ c, ∃ n ≤ N, Calls Q (cmd c) (decode c) n (Q.client c))
    {n : Nat} {a : Rpc η σ κ ρ} (hc : Coupled C Q cmd decode n s a)
    (hs : Link.Step C Q bg s i t) : ∃ n' a', Coupled C Q cmd decode n' t a' ∧
      i.cost + (n' + (N + 1) * t.pending left) ≤ n + (N + 1) * s.pending left := by
  obtain ⟨n', a', hc', hn, -⟩ := coupled_step hcalls hc hs
  have hp := pending_step (N := N) hleft hc hs
  exact ⟨n', a', hc', by omega⟩

/-- **The calls take a bounded number of steps**, apart from what happens in the
    background. -/
theorem Link.bounded
    (hleft : ∀ h c, C.ask h = some c → 0 < left h ∧ ∀ r h', C.tell h r h' → left h' < left h)
    (hcalls : ∀ c, ∃ n ≤ N, Calls Q (cmd c) (decode c) n (Q.client c))
    {is : List Link.Action} (hp : Path (Link.Step C Q bg) s is t) {n : Nat}
    {a : Rpc η σ κ ρ} (hc : Coupled C Q cmd decode n s a) :
    (is.filter (· ≠ .background)).length ≤ n + (N + 1) * s.pending left := by
  induction hp generalizing n a with
  | nil => simp
  | cons hs _ ih =>
    obtain ⟨n', a', hc', hn⟩ := potential_step hleft hcalls hc hs
    have hrest := ih hc'
    rw [Link.Action.cost_cons]
    omega

/-- **They come to their end**: some run from here makes every call that is left. -/
theorem Link.completes (htell : ∀ h c r, C.ask h = some c → ∃ h', C.tell h r h')
    (hleft : ∀ h c, C.ask h = some c → 0 < left h ∧ ∀ r h', C.tell h r h' → left h' < left h)
    (hcalls : ∀ c, ∃ n ≤ N, Calls Q (cmd c) (decode c) n (Q.client c))
    {n : Nat} {a : Rpc η σ κ ρ} (hc : Coupled C Q cmd decode n s a) :
    ∃ is t, Path (Link.Step C Q bg) s is t ∧ t.Quiet ∧ C.ask t.host = none := by
  induction hm : n + (N + 1) * s.pending left using Nat.strongRecOn generalizing s n a with
  | ind m ih =>
    rcases hc.ready htell with ⟨hq, hask⟩ | ⟨i, t, hi, hs⟩
    · exact ⟨[], s, .nil s, hq, hask⟩
    · obtain ⟨n', a', hc', hn⟩ := potential_step hleft hcalls hc hs
      rw [Link.Action.cost_eq_one hi] at hn
      obtain ⟨is, u, hp, hend⟩ := ih _ (by omega) hc' rfl
      exact ⟨i :: is, u, .cons hs hp, hend⟩

end Finite

end Runs

end LsePc.Lib
