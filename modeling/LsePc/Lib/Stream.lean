/-
  File:      LsePc/Lib/Stream.lean
  Subject:   Programs that work on byte streams.

  The two ends of a link: a server that takes its input one symbol at a time, and a client
  whose reads come in pieces. This file names nothing of any particular protocol.

  * `Server`: gets and puts symbols, and calls a handler in between; `Server.feed`: what is
    left of it after some input; `Server.Runs`: its runs over a list of symbols;
  * `Client`: writes blocks, and reads blocks with a loop that takes what each read
    returns; `Client.got`: one read of that loop;
  * `Client.feed_chunk`: the loop ends in the same place however the input is cut;
  * `Client.Runs`: the runs of a client whatever the system does, with errors anywhere.
-/
import Mathlib.Tactic.Common

namespace LsePc.Lib

/-! ## 1. Servers -/

variable {β γ δ α α' : Type}

/-- A program over symbols `β` that calls handlers `γ` with results `δ`. -/
inductive Server (β γ δ α : Type) where
  | ret (a : α)
  | get (k : β → Server β γ δ α)
  | put (b : β) (k : Server β γ δ α)
  | call (c : γ) (k : δ → Server β γ δ α)

namespace Server

def bind : Server β γ δ α → (α → Server β γ δ α') → Server β γ δ α'
  | ret a, f => f a
  | get k, f => get fun b => (k b).bind f
  | put b k, f => put b (k.bind f)
  | call c k, f => call c fun d => (k d).bind f

instance : Monad (Server β γ δ) where
  pure := ret
  bind := bind

@[simp] theorem pure_eq (a : α) : (pure a : Server β γ δ α) = ret a := rfl
@[simp] theorem bind_eq (p : Server β γ δ α) (f : α → Server β γ δ α') :
    p >>= f = p.bind f := rfl

theorem bind_assoc {α'' : Type} (p : Server β γ δ α) (f : α → Server β γ δ α')
    (g : α' → Server β γ δ α'') : (p.bind f).bind g = p.bind fun a => (f a).bind g := by
  induction p with
  | ret a => rfl
  | get k ih => exact congrArg get (funext ih)
  | put b k ih => exact congrArg (put b) ih
  | call c k ih => exact congrArg (call c) (funext ih)

/-- Get `n` symbols. -/
def gets : Nat → Server β γ δ (List β)
  | 0 => ret []
  | n + 1 => get fun b => (gets n).bind fun bs => ret (b :: bs)

/-- Put the symbols of a list. -/
def puts : List β → Server β γ δ Unit
  | [] => ret ()
  | b :: bs => put b (puts bs)

/-- The program after some input, if it takes it all. -/
def feed : Server β γ δ α → List β → Option (Server β γ δ α)
  | p, [] => some p
  | get k, b :: bs => (k b).feed bs
  | _, _ :: _ => none

@[simp] theorem feed_nil (p : Server β γ δ α) : p.feed [] = some p := by
  cases p <;> rfl

@[simp] theorem feed_get (k : β → Server β γ δ α) (b : β) (bs : List β) :
    (get k).feed (b :: bs) = (k b).feed bs := rfl

/-- A program that takes input is waiting for it. -/
theorem feed_cons {p q : Server β γ δ α} {b : β} {bs : List β} (h : p.feed (b :: bs) = some q) :
    ∃ k, p = get k ∧ (k b).feed bs = some q := by
  cases p with
  | get k => exact ⟨k, rfl, h⟩
  | ret a => simp [feed] at h
  | put b k => simp [feed] at h
  | call c k => simp [feed] at h

theorem puts_eq_put {bs : List β} {b : β} {k : Server β γ δ Unit} (h : puts bs = put b k) :
    ∃ bs', bs = b :: bs' ∧ k = puts bs' := by
  cases bs with
  | nil => simp [puts] at h
  | cons b' bs' =>
    simp only [puts, put.injEq] at h
    exact ⟨bs', by rw [h.1], h.2.symm⟩

theorem puts_ne_get {bs : List β} {k : β → Server β γ δ Unit} : puts bs ≠ get k := by
  cases bs <;> simp [puts]

theorem puts_ne_call {bs : List β} {c : γ} {k : δ → Server β γ δ Unit} :
    puts bs ≠ call c k := by
  cases bs <;> simp [puts]

/-- **The runs of a server that is called again each time it returns** (`body`) over all of a
    list of symbols: the handlers it calls until it waits for more. They return anything. -/
inductive Runs (body : Server β γ δ Unit) : Server β γ δ Unit → List β → List γ → Prop where
  | wait (k : β → Server β γ δ Unit) : Runs body (.get k) [] []
  | get {k : β → Server β γ δ Unit} {b : β} {bs : List β} {cs : List γ}
      (h : Runs body (k b) bs cs) : Runs body (.get k) (b :: bs) cs
  | put {b : β} {k : Server β γ δ Unit} {bs : List β} {cs : List γ} (h : Runs body k bs cs) :
      Runs body (.put b k) bs cs
  | call {c : γ} {k : δ → Server β γ δ Unit} {bs : List β} {cs : List γ} (d : δ)
      (h : Runs body (k d) bs cs) : Runs body (.call c k) bs (c :: cs)
  | again {bs : List β} {cs : List γ} (h : Runs body body bs cs) : Runs body (.ret ()) bs cs

section Runs

variable {body : Server β γ δ Unit} {cs : List γ}

theorem runs_wait {k : β → Server β γ δ Unit} : Runs body (.get k) [] cs ↔ cs = [] := by
  constructor
  · intro h
    cases h
    rfl
  · intro h
    subst h
    exact .wait k

theorem runs_get {k : β → Server β γ δ Unit} {b : β} {bs : List β} :
    Runs body (.get k) (b :: bs) cs ↔ Runs body (k b) bs cs := by
  constructor
  · intro h
    cases h with
    | get h => exact h
  · exact .get

/-- What a server puts before it is called again. -/
theorem runs_puts {out bs : List β} :
    Runs body (puts out) bs cs ↔ Runs body body bs cs := by
  induction out with
  | nil =>
    constructor
    · intro h
      cases h with
      | again h => exact h
    · exact .again
  | cons b out ih =>
    rw [← ih]
    constructor
    · intro h
      cases h with
      | put h => exact h
    · exact .put

theorem runs_call {c : γ} {k : δ → Server β γ δ Unit} {bs : List β} :
    Runs body (.call c k) bs cs ↔ ∃ d cs', cs = c :: cs' ∧ Runs body (k d) bs cs' := by
  constructor
  · intro h
    cases h with
    | call d h => exact ⟨d, _, rfl, h⟩
  · intro h
    obtain ⟨d, cs', rfl, h⟩ := h
    exact .call d h

end Runs

end Server

/-! ## 2. Clients -/

/-- A program over a stream that may fail with an `ε`. `read buf size k` is the head of the
    loop that reads a block of `size` symbols, of which `buf` are there; a failure leaves the
    symbols that are there. -/
inductive Client (β ε α : Type) where
  | ret (a : α)
  | write (bs : List β) (k : Nat → Client β ε α)
  | read (buf : List β) (size : Nat) (k : Except (ε × List β) (List β) → Client β ε α)

namespace Client

variable {ε : Type}

def bind : Client β ε α → (α → Client β ε α') → Client β ε α'
  | ret a, f => f a
  | write bs k, f => write bs fun n => (k n).bind f
  | read buf size k, f => read buf size fun r => (k r).bind f

instance : Monad (Client β ε) where
  pure := ret
  bind := bind

@[simp] theorem pure_eq (a : α) : (pure a : Client β ε α) = ret a := rfl
@[simp] theorem bind_eq (p : Client β ε α) (f : α → Client β ε α') : p >>= f = p.bind f := rfl

theorem bind_assoc {α'' : Type} (p : Client β ε α) (f : α → Client β ε α')
    (g : α' → Client β ε α'') : (p.bind f).bind g = p.bind fun a => (f a).bind g := by
  induction p with
  | ret a => rfl
  | write bs k ih => exact congrArg (write bs) (funext ih)
  | read buf size k ih => exact congrArg (read buf size) (funext ih)

/-- One turn of the loop, whose read returned `bs`: `count += ret; while (count < size)`. -/
def got : Client β ε α → List β → Client β ε α
  | read buf size k, bs =>
    if (buf ++ bs).length < size then read (buf ++ bs) size k else k (.ok (buf ++ bs))
  | p, _ => p

/-- The program after some input, if it takes it all. -/
def feed : Client β ε α → List β → Option (Client β ε α)
  | p, [] => some p
  | read buf size k, b :: bs =>
    if buf.length < size then ((read buf size k).got [b]).feed bs else none
  | _, _ :: _ => none

@[simp] theorem feed_nil (p : Client β ε α) : p.feed [] = some p := by
  cases p <;> simp [feed]

theorem feed_read {buf : List β} {size : Nat} {k : Except (ε × List β) (List β) → Client β ε α}
    (b : β) (bs : List β) (h : buf.length < size) :
    (read buf size k).feed (b :: bs) = ((read buf size k).got [b]).feed bs := by
  rw [feed, if_pos h]

/-- A program that takes input is in the loop. -/
theorem feed_cons {p q : Client β ε α} {b : β} {bs : List β} (h : p.feed (b :: bs) = some q) :
    ∃ buf size k, p = read buf size k ∧ buf.length < size := by
  cases p with
  | read buf size k =>
    refine ⟨buf, size, k, rfl, ?_⟩
    by_contra hlt
    rw [feed, if_neg hlt] at h
    exact absurd h (by simp)
  | ret a => simp [feed] at h
  | write bs k => simp [feed] at h

theorem feed_append (p : Client β ε α) (bs bs' : List β) :
    p.feed (bs ++ bs') = (p.feed bs).bind fun q => q.feed bs' := by
  induction bs generalizing p with
  | nil => simp
  | cons b bs ih =>
    cases p with
    | read buf size k =>
      by_cases h : buf.length < size
      · rw [List.cons_append, feed_read b _ h, feed_read b _ h, ih]
      · rw [List.cons_append, feed, feed, if_neg h, if_neg h]
        rfl
    | ret a => simp [feed]
    | write ws k => simp [feed]

/-- **The loop takes a chunk as it takes its symbols one by one.** -/
theorem feed_chunk {buf : List β} {size : Nat} {k : Except (ε × List β) (List β) → Client β ε α}
    {bs : List β} (hne : bs ≠ []) (hle : buf.length + bs.length ≤ size) :
    (read buf size k).feed bs = some ((read buf size k).got bs) := by
  induction bs generalizing buf with
  | nil => exact absurd rfl hne
  | cons b bs ih =>
    rw [List.length_cons] at hle
    rw [feed_read b bs (by omega)]
    rcases bs with _ | ⟨b', bs⟩
    · rw [feed_nil]
    · -- more is to come, so the first symbol does not end the loop
      have hmore : (read buf size k).got [b] = read (buf ++ [b]) size k := by
        rw [List.length_cons] at hle
        rw [got, if_pos (by rw [List.length_append, List.length_singleton]; omega)]
      rw [hmore, ih (by simp) (by rw [List.length_append, List.length_singleton]; omega)]
      simp only [got, List.append_assoc, List.cons_append, List.nil_append]

/-- A whole block. -/
theorem feed_block {size : Nat} {k : Except (ε × List β) (List β) → Client β ε α} {bs : List β}
    (hsize : bs.length = size) (hne : bs ≠ []) (rest : List β) :
    (read [] size k).feed (bs ++ rest) = (k (.ok bs)).feed rest := by
  rw [feed_append, feed_chunk hne (by simp [hsize])]
  simp only [Option.bind_some, got, List.nil_append, hsize, Nat.lt_irrefl, if_false]

/-! ## 3. Runs of a client -/

/-- What the system does for a client. -/
inductive Event (β ε : Type) where
  | wrote (bs : List β) (n : Nat)
  | took (bs : List β)
  | failed (e : ε)

/-- The symbols that have come. -/
def received : List (Event β ε) → List β
  | [] => []
  | .took bs :: tr => bs ++ received tr
  | _ :: tr => received tr

theorem received_append (tr tr' : List (Event β ε)) :
    received (tr ++ tr') = received tr ++ received tr' := by
  induction tr with
  | nil => rfl
  | cons e tr ih =>
    cases e with
    | took bs => rw [List.cons_append, received, received, ih, List.append_assoc]
    | wrote bs n | failed e => rw [List.cons_append, received, received, ih] <;> exact nofun

theorem received_failed {tr : List (Event β ε)} {e : ε} :
    received (tr ++ [.failed e]) = received tr := by
  rw [received_append]
  exact List.append_nil _

/-- **The runs that return**, whatever the system does: a write takes any number of symbols, a
    read returns any chunk that fits, also an empty one, or fails with an error of `fail`. -/
inductive Runs (fail : ε → Prop) : Client β ε α → List (Event β ε) → α → Prop where
  | ret (a : α) : Runs fail (.ret a) [] a
  | write {bs : List β} {k : Nat → Client β ε α} {n : Nat} {tr : List (Event β ε)} {a : α}
      (h : Runs fail (k n) tr a) : Runs fail (.write bs k) (.wrote bs n :: tr) a
  | took {buf bs : List β} {size : Nat} {k : Except (ε × List β) (List β) → Client β ε α}
      {tr : List (Event β ε)} {a : α} (hle : buf.length + bs.length ≤ size)
      (h : Runs fail ((read buf size k).got bs) tr a) :
      Runs fail (.read buf size k) (.took bs :: tr) a
  | failed {buf : List β} {size : Nat} {k : Except (ε × List β) (List β) → Client β ε α} {e : ε}
      {tr : List (Event β ε)} {a : α} (he : fail e) (h : Runs fail (k (.error (e, buf))) tr a) :
      Runs fail (.read buf size k) (.failed e :: tr) a

section Runs

variable {fail : ε → Prop}

theorem got_bind (buf bs : List β) (size : Nat) (k : Except (ε × List β) (List β) → Client β ε α)
    (f : α → Client β ε α') :
    ((read buf size k).bind f).got bs = ((read buf size k).got bs).bind f := by
  change (read buf size fun r => (k r).bind f).got bs = _
  unfold got
  dsimp only
  split <;> rfl

/-- A run of a program and of what follows. -/
theorem runs_bind {p : Client β ε α} {f : α → Client β ε α'} {tr : List (Event β ε)} {b : α'}
    (h : Runs fail (p.bind f) tr b) :
    ∃ tr₁ tr₂ a, tr = tr₁ ++ tr₂ ∧ Runs fail p tr₁ a ∧ Runs fail (f a) tr₂ b := by
  generalize hq : p.bind f = q at h
  induction h generalizing p with
  | ret b =>
    cases p with
    | ret a => exact ⟨[], [], a, rfl, .ret a, by rw [show f a = .ret b from hq]; exact .ret b⟩
    | write | read => cases hq
  | @write bs k n tr b h ih =>
    cases p with
    | ret a => exact ⟨[], _, a, rfl, .ret a, by rw [show f a = .write bs k from hq]; exact .write h⟩
    | write ws k' =>
      cases hq
      obtain ⟨tr₁, tr₂, a, rfl, h₁, h₂⟩ := ih rfl
      exact ⟨_, tr₂, a, rfl, .write h₁, h₂⟩
    | read => cases hq
  | @took buf bs size k tr b hle h ih =>
    cases p with
    | ret a =>
      exact ⟨[], _, a, rfl, .ret a, by rw [show f a = .read buf size k from hq]; exact .took hle h⟩
    | write => cases hq
    | read buf' size' k' =>
      cases hq
      obtain ⟨tr₁, tr₂, a, rfl, h₁, h₂⟩ := ih (got_bind _ _ _ k' f).symm
      exact ⟨_, tr₂, a, rfl, .took hle h₁, h₂⟩
  | @failed buf size k e tr b he h ih =>
    cases p with
    | ret a =>
      exact ⟨[], _, a, rfl, .ret a, by rw [show f a = .read buf size k from hq]; exact .failed he h⟩
    | write => cases hq
    | read buf' size' k' =>
      cases hq
      obtain ⟨tr₁, tr₂, a, rfl, h₁, h₂⟩ := ih rfl
      exact ⟨_, tr₂, a, rfl, .failed he h₁, h₂⟩

theorem runs_ret {a b : α} {tr : List (Event β ε)} (h : Runs fail (.ret a) tr b) :
    tr = [] ∧ b = a := by
  cases h
  exact ⟨rfl, rfl⟩

theorem runs_write {bs : List β} {k : Nat → Client β ε α} {tr : List (Event β ε)} {a : α}
    (h : Runs fail (.write bs k) tr a) :
    ∃ n tr', tr = .wrote bs n :: tr' ∧ Runs fail (k n) tr' a := by
  cases h with
  | write h => exact ⟨_, _, rfl, h⟩

/-- Only chunks came. -/
def Took (tr : List (Event β ε)) : Prop := ∀ e ∈ tr, ∃ bs, e = .took bs

theorem Took.append {tr tr' : List (Event β ε)} (h : Took tr) (h' : Took tr') :
    Took (tr ++ tr') := fun e he =>
  (List.mem_append.mp he).elim (h e) (h' e)

theorem Took.not_failed {tr tr' : List (Event β ε)} (h : Took tr) {e : ε} :
    tr ≠ tr' ++ [.failed e] := by
  intro he
  obtain ⟨bs, hbs⟩ := h (.failed e) (by rw [he]; exact List.mem_append_right _ List.mem_cons_self)
  cases hbs

theorem runs_read {buf : List β} {size : Nat} {k : Except (ε × List β) (List β) → Client β ε α}
    {tr : List (Event β ε)} {a : α} (h : Runs fail (.read buf size k) tr a)
    (hbuf : buf.length < size) :
    ∃ tr₁ tr₂, Took tr₁ ∧
      ((tr = tr₁ ++ tr₂ ∧ (buf ++ received tr₁).length = size ∧
        Runs fail (k (.ok (buf ++ received tr₁))) tr₂ a) ∨
      ∃ e, tr = tr₁ ++ .failed e :: tr₂ ∧ (buf ++ received tr₁).length < size ∧ fail e ∧
        Runs fail (k (.error (e, buf ++ received tr₁))) tr₂ a) := by
  generalize hq : read buf size k = q at h
  induction h generalizing buf with
  | ret | write => cases hq
  | @took buf' bs size' k' tr a hle h ih =>
    cases hq
    have hcons : ∀ tr₁, Took tr₁ → Took (.took bs :: tr₁ : List (Event β ε)) :=
      fun tr₁ h => List.forall_mem_cons.mpr ⟨⟨bs, rfl⟩, h⟩
    rw [got] at h ih
    by_cases hlt : (buf' ++ bs).length < size
    · rw [if_pos hlt] at h ih
      obtain ⟨tr₁, tr₂, htook, ⟨rfl, hlen, hrun⟩ | ⟨e, rfl, hlen, he, hrun⟩⟩ := ih hlt rfl
      · refine ⟨.took bs :: tr₁, tr₂, hcons tr₁ htook, .inl ⟨rfl, ?_⟩⟩
        rw [received, ← List.append_assoc]
        exact ⟨hlen, hrun⟩
      · refine ⟨.took bs :: tr₁, tr₂, hcons tr₁ htook, .inr ⟨e, rfl, ?_⟩⟩
        rw [received, ← List.append_assoc]
        exact ⟨hlen, he, hrun⟩
    · rw [if_neg hlt] at h
      refine ⟨[.took bs], tr, hcons [] nofun, .inl ⟨rfl, ?_⟩⟩
      rw [received, received, List.append_nil]
      rw [List.length_append] at hlt ⊢
      exact ⟨by omega, h⟩
  | @failed buf' size' k' e tr a he h ih =>
    cases hq
    refine ⟨[], tr, nofun, .inr ⟨e, rfl, ?_, he, ?_⟩⟩
    · rwa [received, List.append_nil]
    · rwa [received, List.append_nil]

/-- **A block is read**, or the read has failed on the way. -/
theorem runs_block {size : Nat} {k : Except (ε × List β) (List β) → Client β ε α}
    {tr : List (Event β ε)} {a : α} (h : Runs fail (.read [] size k) tr a) :
    ∃ tr₁ tr₂, Took tr₁ ∧
      ((tr = tr₁ ++ tr₂ ∧ (received tr₁).length = size ∧
        Runs fail (k (.ok (received tr₁))) tr₂ a) ∨
      ∃ e, tr = tr₁ ++ .failed e :: tr₂ ∧ ((received tr₁).length < size ∨ received tr₁ = []) ∧
        fail e ∧ Runs fail (k (.error (e, received tr₁))) tr₂ a) := by
  by_cases hsize : 0 < size
  · obtain ⟨tr₁, tr₂, htook, ⟨rfl, hlen, hrun⟩ | ⟨e, rfl, hlen, he, hrun⟩⟩ := runs_read h hsize
    · exact ⟨tr₁, tr₂, htook, .inl ⟨rfl, hlen, hrun⟩⟩
    · exact ⟨tr₁, tr₂, htook, .inr ⟨e, rfl, .inl hlen, he, hrun⟩⟩
  · -- a read of nothing
    cases h with
    | @took _ bs _ _ tr _ hle h =>
      rw [List.length_nil, Nat.zero_add] at hle
      have hbs : bs = [] := List.eq_nil_of_length_eq_zero (by omega)
      subst hbs
      rw [got, if_neg (by simpa using hsize)] at h
      refine ⟨[.took []], tr, List.forall_mem_cons.mpr ⟨⟨[], rfl⟩, nofun⟩, .inl ⟨rfl, ?_, h⟩⟩
      rw [received, received, List.append_nil, List.length_nil]
      omega
    | failed he h => exact ⟨[], _, nofun, .inr ⟨_, rfl, .inr rfl, he, h⟩⟩

/-- The program writes nothing but blocks of `P`. -/
inductive Writes (P : List β → Prop) : Client β ε α → Prop where
  | ret (a : α) : Writes P (.ret a)
  | write {bs : List β} {k : Nat → Client β ε α} (hbs : P bs) (h : ∀ n, Writes P (k n)) :
      Writes P (.write bs k)
  | read {buf : List β} {size : Nat} {k : Except (ε × List β) (List β) → Client β ε α}
      (h : ∀ r, Writes P (k r)) : Writes P (.read buf size k)

theorem Writes.bind {P : List β → Prop} {p : Client β ε α} {f : α → Client β ε α'}
    (hp : Writes P p) (hf : ∀ a, Writes P (f a)) : Writes P (p.bind f) := by
  induction hp with
  | ret a => exact hf a
  | write hbs _ ih => exact .write hbs ih
  | read _ ih => exact .read ih

theorem Writes.wrote {P : List β → Prop} {p : Client β ε α} {tr : List (Event β ε)} {a : α}
    (hp : Writes P p) (h : Runs fail p tr a) : ∀ bs n, .wrote bs n ∈ tr → P bs := by
  induction h with
  | ret a => exact fun _ _ hm => absurd hm List.not_mem_nil
  | write h ih =>
    cases hp with
    | write hbs hk =>
      intro bs n hm
      rcases List.mem_cons.mp hm with he | hm
      · cases he
        exact hbs
      · exact ih (hk _) bs n hm
  | took hle h ih =>
    cases hp with
    | read hk =>
      intro bs n hm
      refine ih ?_ bs n ((List.mem_cons.mp hm).resolve_left nofun)
      rw [got]
      split
      · exact .read hk
      · exact hk _
  | failed he h ih =>
    cases hp with
    | read hk =>
      intro bs n hm
      exact ih (hk _) bs n ((List.mem_cons.mp hm).resolve_left nofun)

end Runs

end Client

end LsePc.Lib
