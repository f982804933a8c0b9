/-
  File:      LsePc/Lib/Timed.lean
  Subject:   Links whose reads time out.

  A read that waits gives up when nothing is under way any more. Whatever the order of the
  steps, a client and a server that calls no handler then come to one end. This file names
  nothing of any particular protocol.

  * `Link.Timed`: the steps of a link, and timeouts;
  * `Server.Gives`: what a server makes of the input it gets;
  * `Ends`: the end of a client, worked out as if the server were always faster;
  * `Link.Fated`, `fated_step`: a state whose end is known, and its steps;
  * `Link.Fated.run`, `Link.Fated.settles`: every run stays on the way to this end and is
    bounded, and some run reaches it.
-/
import LsePc.Lib.Link

namespace LsePc.Lib

variable {η σ β ε κ γ δ ρ : Type}

/-! ## 1. Timeouts -/

/-- A server that has nothing to do before more input comes. -/
def Server.Waits : Server β γ δ Unit → Prop
  | .ret _ | .get _ => True
  | .put _ _ | .call _ _ => False

/-- A read fails with `late` when both queues are empty and the server waits; the symbols it
    has taken are gone. -/
inductive Link.Timed (C : Caller η κ ρ) (Q : Protocol σ β ε κ γ δ ρ) (bg : σ → σ → Prop)
    (late : ε) : Link η σ β ε γ δ ρ → Option Link.Action → Link η σ β ε γ δ ρ → Prop where
  | step {s t : Link η σ β ε γ δ ρ} {i : Link.Action} (h : Link.Step C Q bg s i t) :
      Link.Timed C Q bg late s (some i) t
  | timeout {s : Link η σ β ε γ δ ρ} {buf : List β} {size : Nat}
      {k : Except (ε × List β) (List β) → Client β ε ρ} (hcur : s.cur = some (.read buf size k))
      (hcli : s.toClient = []) (hsrv : s.toServer = []) (hwait : s.server.Waits) :
      Link.Timed C Q bg late s none { s with cur := some (k (.error (late, buf))) }

/-- What a step takes from a bound. -/
def Link.timedCost : Option Link.Action → Nat
  | some i => i.cost
  | none => 1

/-! ## 2. The end of a client -/

/-- **With the input `bs` the server puts `out`** and then waits as `v`; it calls no handler and
    takes `n` steps. -/
inductive Server.Gives (body : Server β γ δ Unit) :
    Nat → Server β γ δ Unit → List β → List β → Server β γ δ Unit → Prop where
  | waits {u : Server β γ δ Unit} (h : u.Waits) : Server.Gives body 0 u [] [] u
  | get {n : Nat} {k : β → Server β γ δ Unit} {b : β} {bs out : List β} {v : Server β γ δ Unit}
      (h : Server.Gives body n (k b) bs out v) :
      Server.Gives body (n + 1) (.get k) (b :: bs) out v
  | put {n : Nat} {k : Server β γ δ Unit} {b : β} {bs out : List β} {v : Server β γ δ Unit}
      (h : Server.Gives body n k bs out v) : Server.Gives body (n + 1) (.put b k) bs (b :: out) v
  | again {n : Nat} {bs out : List β} {v : Server β γ δ Unit} (hne : bs ≠ [])
      (h : Server.Gives body n body bs out v) : Server.Gives body (n + 1) (.ret ()) bs out v

theorem Server.Gives.append {body u v w : Server β γ δ Unit} {n m : Nat}
    {bs bs' out out' : List β} (h : Server.Gives body n u bs out v)
    (h' : Server.Gives body m v bs' out' w) :
    Server.Gives body (n + m) u (bs ++ bs') (out ++ out') w := by
  induction h with
  | waits =>
    rw [Nat.zero_add]
    exact h'
  | get _ ih =>
    rw [Nat.succ_add]
    exact .get (ih h')
  | put _ ih =>
    rw [Nat.succ_add]
    exact .put (ih h')
  | again hne _ ih =>
    rw [Nat.succ_add]
    exact .again (fun h => hne (List.append_eq_nil_iff.mp h).1) (ih h')

/-- **How a client ends** that has `r` to read from a server that waits as `u`: it returns `a`,
    with `left` to read and the server waiting as `v`. -/
inductive Ends (body : Server β γ δ Unit) (late : ε) : Nat → Client β ε ρ → List β →
    Server β γ δ Unit → ρ → List β → Server β γ δ Unit → Prop where
  | ret (a : ρ) (r : List β) (u : Server β γ δ Unit) : Ends body late 0 (.ret a) r u a r u
  | write {m n : Nat} {bs out r left : List β} {k : Nat → Client β ε ρ}
      {u u' v : Server β γ δ Unit} {a : ρ} (hg : Server.Gives body m u bs out u')
      (h : Ends body late n (k bs.length) (r ++ out) u' a left v) :
      Ends body late (n + m + 1) (.write bs k) r u a left v
  | took {n : Nat} {b : β} {buf r left : List β} {size : Nat}
      {k : Except (ε × List β) (List β) → Client β ε ρ} {u v : Server β γ δ Unit} {a : ρ}
      (hlt : buf.length < size)
      (h : Ends body late n ((Client.read buf size k).got [b]) r u a left v) :
      Ends body late (n + 1) (.read buf size k) (b :: r) u a left v
  | timeout {n : Nat} {buf left : List β} {size : Nat}
      {k : Except (ε × List β) (List β) → Client β ε ρ} {u v : Server β γ δ Unit} {a : ρ}
      (h : Ends body late n (k (.error (late, buf))) [] u a left v) :
      Ends body late (n + 1) (.read buf size k) [] u a left v

/-- A chunk is taken as its symbols are. -/
theorem Ends.chunk {body : Server β γ δ Unit} {late : ε} {n : Nat} {buf chunk r left : List β}
    {size : Nat} {k : Except (ε × List β) (List β) → Client β ε ρ} {u v : Server β γ δ Unit}
    {a : ρ} (h : Ends body late n (.read buf size k) (chunk ++ r) u a left v) (hne : chunk ≠ [])
    (hle : buf.length + chunk.length ≤ size) :
    ∃ n' < n, Ends body late n' ((Client.read buf size k).got chunk) r u a left v := by
  induction chunk generalizing buf n with
  | nil => exact absurd rfl hne
  | cons b chunk ih =>
    rw [List.length_cons] at hle
    cases h with
    | @took n _ _ _ _ _ _ _ _ _ hlt h =>
      rcases chunk with _ | ⟨b', chunk⟩
      · exact ⟨n, Nat.lt_succ_self n, h⟩
      · -- more is to come, so the first symbol does not end the loop
        rw [List.length_cons] at hle
        have hmore : (Client.read buf size k).got [b] = .read (buf ++ [b]) size k := by
          rw [Client.got, if_pos (by rw [List.length_append, List.length_singleton]; omega)]
        rw [hmore] at h
        obtain ⟨n', hn', h'⟩ := ih h (List.cons_ne_nil _ _)
          (by rw [List.length_append, List.length_singleton, List.length_cons]; omega)
        refine ⟨n', Nat.lt_succ_of_lt hn', ?_⟩
        simpa only [Client.got, List.append_assoc, List.cons_append, List.nil_append] using h'

/-! ## 3. Every run comes to it -/

/-- A link whose client is to return `a` and leave `left` to read, and the server as `v`. -/
def Link.Fated (body : Server β γ δ Unit) (late : ε) (n : Nat) (a : ρ) (left : List β)
    (v : Server β γ δ Unit) (s : Link η σ β ε γ δ ρ) : Prop :=
  ∃ p m l out u, s.cur = some p ∧ Server.Gives body m s.server s.toServer out u ∧
    Ends body late l p (s.toClient ++ out) u a left v ∧ n = m + l

section Steps

variable {C : Caller η κ ρ} {Q : Protocol σ β ε κ γ δ ρ} {bg : σ → σ → Prop} {late : ε}
  {n : Nat} {a : ρ} {left : List β} {v : Server β γ δ Unit} {s t : Link η σ β ε γ δ ρ}

/-- **A step keeps the end**, and takes from the bound. -/
theorem fated_step (hmute : ∀ h r h', ¬ C.tell h r h') {i : Option Link.Action}
    (h : Link.Fated Q.body late n a left v s) (hs : Link.Timed C Q bg late s i t) :
    ∃ n', Link.Fated Q.body late n' a left v t ∧ n' + Link.timedCost i ≤ n := by
  obtain ⟨p, m, l, out, u, hcur, hg, he, rfl⟩ := h
  cases hs with
  | step hs =>
    cases hs with
    | begin hnone => simp [hcur] at hnone
    | write hw =>
      rw [hcur] at hw
      obtain rfl := Option.some.inj hw
      cases he with
      | write hg' he =>
        rw [List.append_assoc] at he
        refine ⟨_, ⟨_, _, _, _, _, rfl, hg.append hg', he, rfl⟩, ?_⟩
        simp only [Link.timedCost, Link.Action.cost]
        omega
    | read hr hcli hne hle =>
      rw [hcur] at hr
      obtain rfl := Option.some.inj hr
      rw [hcli, List.append_assoc] at he
      obtain ⟨l', hl', he'⟩ := he.chunk hne hle
      refine ⟨_, ⟨_, _, _, _, _, rfl, hg, he', rfl⟩, ?_⟩
      simp only [Link.timedCost, Link.Action.cost]
      omega
    | enter hserver hq =>
      rw [hserver] at hg
      generalize s.toServer = bs at hg hq
      cases hg with
      | waits => exact absurd rfl hq
      | again _ hg =>
        refine ⟨_, ⟨_, _, l, _, _, hcur, hg, he, rfl⟩, ?_⟩
        simp only [Link.timedCost, Link.Action.cost]
        omega
    | get hserver hq =>
      rw [hserver, hq] at hg
      cases hg with
      | get hg =>
        refine ⟨_, ⟨_, _, l, _, _, hcur, hg, he, rfl⟩, ?_⟩
        simp only [Link.timedCost, Link.Action.cost]
        omega
    | call hserver =>
      rw [hserver] at hg
      generalize s.toServer = bs at hg
      cases hg with
      | waits h => cases h
    | put hserver =>
      rw [hserver] at hg
      generalize s.toServer = bs at hg
      cases hg with
      | waits h => cases h
      | put hg =>
        refine ⟨_, ⟨_, _, l, _, _, hcur, hg, ?_, rfl⟩, ?_⟩
        · simpa using he
        · simp only [Link.timedCost, Link.Action.cost]
          omega
    | finish hret htell => exact absurd htell (hmute _ _ _)
    | background hbg => exact ⟨_, ⟨_, _, _, _, _, hcur, hg, he, rfl⟩, Nat.le_refl _⟩
  | @timeout buf size k hr hcli hsrv hwait =>
    rw [hcur] at hr
    obtain rfl := Option.some.inj hr
    have hg' : Server.Gives Q.body 0 s.server s.toServer [] s.server := by
      rw [hsrv]
      exact .waits hwait
    rw [hsrv] at hg
    generalize s.server = w at hg hwait hg'
    cases hg with
    | waits =>
      rw [hcli] at he
      cases he with
      | @timeout l _ _ _ _ _ _ _ he =>
        have he' : Ends Q.body late l (k (.error (late, buf))) (s.toClient ++ []) u a left v := by
          rw [hcli]
          exact he
        exact ⟨_, ⟨_, _, l, _, _, rfl, hg', he', rfl⟩, by simp only [Link.timedCost]; omega⟩
    | put => cases hwait
    | again hne => exact absurd rfl hne

/-- A server that has more to do does it, and else it has come to its end. -/
theorem Server.Gives.ready {m : Nat} {out : List β} {u : Server β γ δ Unit}
    (h : Server.Gives Q.body m s.server s.toServer out u) :
    (s.toServer = [] ∧ out = [] ∧ s.server = u ∧ u.Waits) ∨
      ∃ i t, i ≠ .background ∧ Link.Step C Q bg s i t := by
  generalize hserver : s.server = w at h
  generalize hq : s.toServer = bs at h
  cases h with
  | waits h => exact .inl ⟨rfl, rfl, rfl, h⟩
  | get h => exact .inr ⟨.get, _, nofun, .get hserver hq⟩
  | put h => exact .inr ⟨.put, _, nofun, .put hserver⟩
  | again hne h => exact .inr ⟨.enter, _, nofun, .enter hserver (by rwa [hq])⟩

/-- A link that has come to its end. -/
def Link.Settled (a : ρ) (left : List β) (v : Server β γ δ Unit) (s : Link η σ β ε γ δ ρ) : Prop :=
  s.cur = some (.ret a) ∧ s.toServer = [] ∧ s.toClient = left ∧ s.server = v

/-- **Nobody waits for ever.** -/
theorem fated_ready (h : Link.Fated Q.body late n a left v s) :
    s.Settled a left v ∨ ∃ i t, i ≠ some .background ∧ Link.Timed C Q bg late s i t := by
  obtain ⟨p, m, l, out, u, hcur, hg, he, -⟩ := h
  have hready : (s.toServer = [] ∧ out = [] ∧ s.server = u ∧ u.Waits) ∨
      ∃ i t, i ≠ .background ∧ Link.Step C Q bg s i t := hg.ready
  rcases hready with ⟨hsrv, rfl, hu, hwait⟩ | ⟨i, t, hi, hs⟩
  · rw [List.append_nil] at he
    generalize hcli : s.toClient = r at he
    cases he with
    | ret => exact .inl ⟨hcur, hsrv, hcli, hu⟩
    | write => exact .inr ⟨some .write, _, nofun, .step (.write hcur)⟩
    | @took _ b buf r _ size k _ _ _ hlt =>
      have hread : Link.Step C Q bg s .read
          { s with cur := some ((Client.read buf size k).got [b]), toClient := r } :=
        .read hcur hcli nofun hlt
      exact .inr ⟨some .read, _, nofun, .step hread⟩
    | timeout => exact .inr ⟨none, _, nofun, .timeout hcur hcli hsrv (by rwa [hu])⟩
  · exact .inr ⟨some i, t, by simpa using hi, .step hs⟩

/-- **A run**: it is on the way to the same end, and bounded. -/
theorem Link.Fated.run (hmute : ∀ h r h', ¬ C.tell h r h') {is : List (Option Link.Action)}
    (h : Link.Fated Q.body late n a left v s) (hp : Path (Link.Timed C Q bg late) s is t) :
    ∃ n', Link.Fated Q.body late n' a left v t ∧
      n' + (is.filter (· ≠ some .background)).length ≤ n := by
  induction hp generalizing n with
  | nil => exact ⟨n, h, Nat.le_refl n⟩
  | @cons _ _ _ i is hs _ ih =>
    obtain ⟨m, hm, hle⟩ := fated_step hmute h hs
    obtain ⟨n', hn', hle'⟩ := ih hm
    refine ⟨n', hn', ?_⟩
    have hcost : ((i :: is).filter (· ≠ some .background)).length =
        Link.timedCost i + (is.filter (· ≠ some .background)).length := by
      rcases i with _ | i
      · simp [Link.timedCost, Nat.add_comm]
      · cases i <;> simp [Link.timedCost, Link.Action.cost, Nat.add_comm]
    omega

/-- **Some run comes to the end.** -/
theorem Link.Fated.settles (hmute : ∀ h r h', ¬ C.tell h r h')
    (h : Link.Fated Q.body late n a left v s) :
    ∃ is t, Path (Link.Timed C Q bg late) s is t ∧ t.Settled a left v := by
  induction n using Nat.strongRecOn generalizing s with
  | ind n ih =>
    have hready : s.Settled a left v ∨
        ∃ i t, i ≠ some .background ∧ Link.Timed C Q bg late s i t := fated_ready h
    rcases hready with hend | ⟨i, t, hi, hs⟩
    · exact ⟨[], s, .nil s, hend⟩
    · obtain ⟨m, hm, hle⟩ := fated_step hmute h hs
      have hcost : Link.timedCost i = 1 := by
        rcases i with _ | i
        · rfl
        · exact Link.Action.cost_eq_one fun he => hi (congrArg some he)
      obtain ⟨is, u, hp, hend⟩ := ih m (by omega) hm
      exact ⟨i :: is, u, .cons hs hp, hend⟩

/-- A client that has returned has returned what it was to return. -/
theorem Link.Fated.returned (h : Link.Fated Q.body late n a left v s) {r : ρ}
    (hcur : s.cur = some (.ret r)) : r = a ∧ ∃ m out,
      Server.Gives Q.body m s.server s.toServer out v ∧ s.toClient ++ out = left := by
  obtain ⟨p, m, l, out, u, hcur', hg, he, -⟩ := h
  rw [hcur] at hcur'
  obtain rfl := Option.some.inj hcur'
  generalize hr : s.toClient ++ out = r at he
  cases he with
  | ret => exact ⟨rfl, m, out, hg, hr⟩

end Steps

end LsePc.Lib
