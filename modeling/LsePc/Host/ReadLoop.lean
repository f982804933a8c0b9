/-
  File:      LsePc/Host/ReadLoop.lean
  Subject:   `lsepc_read` of lsepc.c: the loop over `select` and `read`.

  * `Answer`: what the descriptor does at one turn: `select` times out or fails, or reports
    that it is readable and `read` fails, or returns bytes, or none at the end of the file;
  * `lsepcRead`: the function, on the memory from `buff` on;
  * `lsepcRead_runs`: where it returns it is the read of the host library's model
    (Lsepc.lean), with the same result;
  * `HangsUp`: the descriptor is at its end for ever before the bytes asked for have come;
  * **result** (`lsepc_read_returns_iff`): when a call returns, and 0 only with all bytes.

  `write_fds` and `except_fds` stay empty. What `select` leaves of the timeout decides nothing
  here: an answer says what that `select` does, however long it may wait.
-/
import LsePc.Lib.Loop
import LsePc.Host.Answers
import Mathlib.Algebra.Order.Ring.Nat
import Mathlib.Algebra.Ring.Int.Defs

namespace LsePc.Host.ReadLoop

open LsePc.Lib LsePc.Supervisor

/-! ## 1. The source -/

/-- The bytes a `read` may return; their number is an `int`. -/
abbrev Chunk := { bs : List Byte // bs.length < 2 ^ 31 }

/-- The error of a call. -/
abbrev Errno := { n : Int // 0 < n }

inductive Answer where
  | timeout
  | selectError
  | readError (errno : Errno)
  | read (bs : Chunk)

/-- The end of the file, or a line that has been hung up. -/
def eof : Answer := .read ⟨[], by decide⟩

/-- What the loop works on: `count`, `read_fds` (whether `fd` is in it), `errno`, the memory from
    `buff` on, the answers still to come, and the bytes that have arrived. -/
structure Vars where
  count : Int
  readFds : Bool
  errno : Int
  b : Int → Byte
  fd : Nat → Answer
  arrived : List Byte

def next (fd : Nat → Answer) : Nat → Answer := fun t => fd (t + 1)

def select (v : Vars) : Int × Vars :=
  match v.fd 0 with
  | .timeout => (0, { v with readFds := false })
  | .selectError => (-1, v)
  -- the descriptor is readable; without it in the set the call would time out
  | .readError _ | .read _ => if v.readFds then (1, v) else (0, v)

/-- The bytes are stored at `p`. -/
def store (b : Int → Byte) (p : Int) (bs : List Byte) : Int → Byte := fun i =>
  if p ≤ i ∧ i < p + bs.length then bs.getD (i - p).toNat 0 else b i

/-- The parameter of `read`. -/
def sizeT (n : Int) : Nat := (n % 2 ^ 64).toNat

/-- At most `n` bytes. -/
def read (v : Vars) (p : Int) (n : Nat) : Int × Vars :=
  match v.fd 0 with
  | .read bs =>
    let got := bs.val.take n
    (got.length,
      { v with b := store v.b p got, fd := next v.fd, arrived := v.arrived ++ got })
  | .readError e => (-1, { v with errno := e, fd := next v.fd })
  | .timeout | .selectError => (-1, v)

def round (size : Int) (v : Vars) : Round Vars (Int × Vars) :=
  let (ret, v) := select v
  if ret = 1 then
    let (ret, v) := read v v.count (sizeT (size - v.count))
    if ret < 0 then .leave (v.errno, v)
    else
      let v := { v with count := v.count + ret }
      if v.count < size then .next v else .leave (0, v)
  else .leave (-etime, v)

/-- The variables at the first turn. -/
def start (fd : Nat → Answer) (buff : Int → Byte) : Vars :=
  { count := 0, readFds := true, errno := 0, b := buff, fd := fd, arrived := [] }

def lsepcRead (fd : Nat → Answer) (buff : Int → Byte) (size : BitVec 32) (rounds : Nat) :
    Outcome (Int × Vars) :=
  runLoop (round size.toInt) rounds (start fd buff)

/-! ## 2. One round -/

variable {size : Int} {v w : Vars} {fd : Nat → Answer} {bs : Chunk}

/-- The variables after `read` has returned these bytes. -/
def Vars.took (v : Vars) (got : List Byte) : Vars :=
  { v with
    count := v.count + got.length
    b := store v.b v.count got
    fd := next v.fd
    arrived := v.arrived ++ got }

/-- What a round takes of the bytes there are. -/
def Vars.got (v : Vars) (size : Int) (bs : Chunk) : List Byte :=
  bs.val.take (sizeT (size - v.count))

theorem round_read (size : Int) (hset : v.readFds = true) (hfd : v.fd 0 = .read bs) :
    round size v = if (v.took (v.got size bs)).count < size then .next (v.took (v.got size bs))
      else .leave (0, v.took (v.got size bs)) := by
  have hsel : select v = (1, v) := by
    unfold select
    rw [hfd]
    exact if_pos hset
  have hread : read v v.count (sizeT (size - v.count)) = (((v.got size bs).length : Int),
      { v with b := store v.b v.count (v.got size bs), fd := next v.fd,
               arrived := v.arrived ++ v.got size bs }) := by
    unfold read
    rw [hfd]
    rfl
  have hpos : ¬ ((v.got size bs).length : Int) < 0 := by omega
  unfold round
  rw [hsel]
  dsimp only
  rw [if_pos rfl, hread]
  dsimp only
  rw [if_neg hpos]
  rfl

/-- Where nothing is read the call ends with an error. -/
theorem round_failed (size : Int) (hset : v.readFds = true) (hfd : ∀ bs, v.fd 0 ≠ .read bs) :
    ∃ ret w, round size v = .leave (ret, w) ∧ Fails ret ∧ w.arrived = v.arrived := by
  unfold round select
  cases ha : v.fd 0 with
  | timeout => exact ⟨-etime, _, rfl, .inl rfl, rfl⟩
  | selectError => exact ⟨-etime, _, rfl, .inl rfl, rfl⟩
  | readError e =>
    refine ⟨e, { v with errno := e, fd := next v.fd }, ?_, .inr e.property, rfl⟩
    dsimp only
    rw [if_pos hset]
    dsimp only
    rw [if_pos rfl, read, ha]
    rfl
  | read bs => exact absurd ha (hfd bs)

/-- What a turn comes to: bytes, and more to come; the last bytes; an error. -/
inductive Turn (size : Int) (v : Vars) : Prop where
  | more (bs : Chunk) (hfd : v.fd 0 = .read bs) (hlt : (v.took (v.got size bs)).count < size)
      (hr : round size v = .next (v.took (v.got size bs)))
  | done (bs : Chunk) (hfd : v.fd 0 = .read bs) (hge : size ≤ (v.took (v.got size bs)).count)
      (hr : round size v = .leave (0, v.took (v.got size bs)))
  | failed (ret : Int) (w : Vars) (hr : round size v = .leave (ret, w)) (hret : Fails ret)
      (harr : w.arrived = v.arrived)

theorem round_turn (size : Int) (hset : v.readFds = true) : Turn size v := by
  by_cases hfd : ∃ bs, v.fd 0 = .read bs
  · obtain ⟨bs, hbs⟩ := hfd
    have hr := round_read size hset hbs
    by_cases hlt : (v.took (v.got size bs)).count < size
    · rw [if_pos hlt] at hr
      exact .more bs hbs hlt hr
    · rw [if_neg hlt] at hr
      exact .done bs hbs (Int.not_lt.mp hlt) hr
  · obtain ⟨ret, w, hr, hret, harr⟩ := round_failed size hset (not_exists.mp hfd)
    exact .failed ret w hr hret harr

@[simp] theorem took_count (v : Vars) (got : List Byte) :
    (v.took got).count = v.count + got.length := rfl

@[simp] theorem took_arrived (v : Vars) (got : List Byte) :
    (v.took got).arrived = v.arrived ++ got := rfl

theorem sizeT_eq {n : Int} (h0 : 0 ≤ n) (h : n < 2 ^ 31) : (sizeT n : Int) = n := by
  unfold sizeT
  omega

theorem fails_ne {ret : Int} (h : Fails ret) : ret ≠ 0 := by
  rcases h with rfl | h
  · decide
  · exact Int.ne_of_gt h

/-! ## 3. The bytes -/

/-- What has arrived stands in the buffer, and is counted. -/
structure Stored (v : Vars) : Prop where
  readFds : v.readFds = true
  count : v.count = v.arrived.length
  bytes : ∀ (i : Nat) (h : i < v.arrived.length), v.b i = v.arrived[i]

theorem Stored.took (h : Stored v) (got : List Byte) : Stored (v.took got) := by
  refine ⟨h.readFds, ?_, fun i hi => ?_⟩
  · rw [took_count, took_arrived, h.count, List.length_append]
    omega
  · have hb : (v.took got).b i = store v.b v.count got i := rfl
    simp only [took_arrived, List.length_append] at hi ⊢
    rw [hb, store, h.count, List.getElem_append]
    split
    · rename_i hin
      -- behind the bytes that were there
      have hge : ¬ i < v.arrived.length := by omega
      have hsub : ((i : Int) - v.arrived.length).toNat = i - v.arrived.length := by omega
      rw [dif_neg hge, hsub, List.getD_eq_getElem?_getD, List.getElem?_eq_getElem (by omega),
        Option.getD_some]
    · rename_i hout
      have hlt : i < v.arrived.length := by omega
      rw [dif_pos hlt]
      exact h.bytes i hlt

/-- A call does not take more than it has been asked for. -/
theorem count_took (hle : v.count ≤ size) (hsize : size - v.count < 2 ^ 31) (bs : Chunk) :
    (v.took (v.got size bs)).count ≤ size := by
  have hlen : (v.got size bs).length ≤ sizeT (size - v.count) := List.length_take_le _ _
  have hreq := sizeT_eq (Int.sub_nonneg.mpr hle) hsize
  rw [took_count]
  omega

/-- The variables at the head of the loop, of a call whose size is not negative. -/
structure Filling (size : Int) (v : Vars) : Prop where
  stored : Stored v
  nonneg : 0 ≤ v.count
  le : v.count ≤ size

theorem Filling.took (hsize : size < 2 ^ 31) (h : Filling size v) (bs : Chunk) :
    Filling size (v.took (v.got size bs)) := by
  have h0 := h.nonneg
  refine ⟨h.stored.took _, ?_, count_took h.le (by omega) bs⟩
  rw [took_count]
  omega

/-- **A call that returns 0 has all bytes in the buffer**, in the order they came. -/
theorem returns_zero {n : Nat} (hsize : size < 2 ^ 31) (hv : Filling size v)
    (h : runLoop (round size) n v = .done (0, w)) : Stored w ∧ w.count = size := by
  have hnext : ∀ s s', Filling size s → round size s = .next s' → Filling size s' := by
    intro s s' hs hr
    cases round_turn size hs.stored.readFds with
    | more bs _ _ hr' =>
      cases hr.symm.trans hr'
      exact hs.took hsize bs
    | done bs _ _ hr' => cases hr.symm.trans hr'
    | failed ret w hr' => cases hr.symm.trans hr'
  rcases loop_invariant hnext hv n with hrun | ⟨s, hs, ⟨a, hr, hdone⟩ | ⟨-, hfault⟩⟩
  · cases hrun.symm.trans h
  · cases hdone.symm.trans h
    cases round_turn size hs.stored.readFds with
    | more bs _ _ hr' => cases hr.symm.trans hr'
    | done bs _ hge hr' =>
      cases hr.symm.trans hr'
      have hs' := hs.took hsize bs
      exact ⟨hs'.stored, Int.le_antisymm hs'.le hge⟩
    | failed ret w hr' hret =>
      cases hr.symm.trans hr'
      exact absurd rfl (fails_ne hret)
  · cases hfault.symm.trans h

/-- **The loop is the read of the host library's model**: with the bytes that arrive it comes to
    the same result. -/
theorem loop_runs {n : Nat} {ret : Int} (hsize : size < 2 ^ 31) (hv : Filling size v)
    (h : runLoop (round size) n v = .done (ret, w)) :
    ∃ tr, w.arrived = v.arrived ++ Client.received tr ∧
      Client.Runs Fails (.read v.arrived size.toNat .ret) tr
        (if ret = 0 then .ok w.arrived else .error (ret, w.arrived)) := by
  induction n generalizing v with
  | zero => cases h
  | succ n ih =>
    have hcount := hv.stored.count
    have hfit : ∀ bs, v.arrived.length + (v.got size bs).length ≤ size.toNat := by
      intro bs
      have hle := (hv.took hsize bs).le
      rw [took_count] at hle
      omega
    rw [runLoop] at h
    cases round_turn size hv.stored.readFds with
    | more bs _ hlt hr =>
      rw [hr] at h
      obtain ⟨tr, hw, hrun⟩ := ih (hv.took hsize bs) h
      refine ⟨.took (v.got size bs) :: tr, ?_, .took (hfit bs) ?_⟩
      · rw [hw, took_arrived, Client.received, List.append_assoc]
      · rw [took_count] at hlt
        rw [Client.got, if_pos (by rw [List.length_append]; omega)]
        exact hrun
    | done bs _ hge hr =>
      rw [hr] at h
      cases h
      refine ⟨[.took (v.got size bs)], ?_, .took (hfit bs) ?_⟩
      · rw [took_arrived, Client.received, Client.received, List.append_nil]
      · rw [took_count] at hge
        rw [Client.got, if_neg (by rw [List.length_append]; omega), if_pos rfl, took_arrived]
        exact .ret _
    | failed ret' w' hr hret harr =>
      rw [hr] at h
      cases h
      refine ⟨[.failed ret], ?_, .failed hret ?_⟩
      · rw [harr, Client.received, Client.received, List.append_nil]
        intro bs htook
        cases htook
      · rw [if_neg (fails_ne hret), harr]
        exact .ret _

/-! ## 4. A line that has been hung up -/

/-- The bytes of an answer. -/
def Answer.bytes : Answer → List Byte
  | .read bs => bs.val
  | .timeout | .selectError | .readError _ => []

/-- The number of bytes in the first answers. -/
def total (fd : Nat → Answer) : Nat → Nat
  | 0 => 0
  | k + 1 => total fd k + (fd k).bytes.length

/-- **The descriptor hangs up too early**: from some turn on it is readable and at its end for
    ever, and before that only reads came, of fewer bytes than have been asked for. -/
def HangsUp (size : Int) (fd : Nat → Answer) : Prop :=
  ∃ k, (∀ t < k, ∃ bs, fd t = .read bs) ∧ total fd k < size ∧ ∀ t, k ≤ t → fd t = eof

theorem total_next (fd : Nat → Answer) (k : Nat) :
    total fd (k + 1) = (fd 0).bytes.length + total (next fd) k := by
  induction k with
  | zero => exact Nat.add_comm _ _
  | succ k ih =>
    rw [total, ih, total, Nat.add_assoc]
    rfl

/-- The first turn of a hang-up: a read that is too short, and then a hang-up. -/
theorem hangsUp_iff : HangsUp size fd ↔ ∃ bs, fd 0 = .read bs ∧ (bs.val.length : Int) < size ∧
    HangsUp (size - bs.val.length) (next fd) := by
  constructor
  · rintro ⟨k, hreads, htotal, heof⟩
    cases k with
    | zero =>
      have h0 : fd 0 = eof := heof 0 (Nat.le_refl 0)
      refine ⟨_, h0, htotal, 0, fun t ht => absurd ht (Nat.not_lt_zero t), ?_, fun t _ => ?_⟩
      · exact lt_of_lt_of_eq htotal (Int.sub_zero size).symm
      · exact heof (t + 1) (Nat.zero_le _)
    | succ k =>
      obtain ⟨bs, hbs⟩ := hreads 0 (Nat.succ_pos k)
      rw [total_next, hbs] at htotal
      have hlen : (Answer.read bs).bytes.length = bs.val.length := rfl
      refine ⟨bs, hbs, by omega, k, fun t ht => ?_, by omega, fun t ht => ?_⟩
      · exact hreads (t + 1) (Nat.succ_lt_succ ht)
      · exact heof (t + 1) (Nat.succ_le_succ ht)
  · rintro ⟨bs, hbs, -, k, hreads, htotal, heof⟩
    refine ⟨k + 1, fun t ht => ?_, ?_, fun t ht => ?_⟩
    · cases t with
      | zero => exact ⟨bs, hbs⟩
      | succ t => exact hreads t (Nat.lt_of_succ_lt_succ ht)
    · rw [total_next, hbs]
      have hlen : (Answer.read bs).bytes.length = bs.val.length := rfl
      omega
    · cases t with
      | zero => exact absurd ht (Nat.not_succ_le_zero k)
      | succ t => exact heof t (Nat.le_of_succ_le_succ ht)

/-- A short read is taken whole. -/
theorem got_short (hlt : (bs.val.length : Int) < size - v.count) (hsize : size - v.count < 2 ^ 31) :
    v.got size bs = bs.val := by
  have hreq := sizeT_eq (n := size - v.count) (by omega) hsize
  exact List.take_of_length_le (by omega)

/-- The variables at the head of the loop, of a call that hangs. -/
structure Hung (size : Int) (v : Vars) : Prop where
  readFds : v.readFds = true
  count : 0 ≤ v.count
  fd : HangsUp (size - v.count) v.fd

theorem hung_round (hsize : size < 2 ^ 31) (h : Hung size v) :
    ∃ v', round size v = .next v' ∧ Hung size v' := by
  obtain ⟨bs, hbs, hlt, hrest⟩ := hangsUp_iff.mp h.fd
  have hv0 := h.count
  have hcount : (v.took (v.got size bs)).count = v.count + bs.val.length := by
    rw [took_count, got_short hlt (by omega)]
  refine ⟨v.took (v.got size bs), ?_, h.readFds, by omega, ?_⟩
  · rw [round_read size h.readFds hbs, if_pos (by omega)]
  · rw [hcount, ← Int.sub_sub]
    exact hrest

/-- **After a hang-up the call does not return.** -/
theorem hangs_never (hsize : size < 2 ^ 31) (h : Hung size v) (n : Nat) (a : Int × Vars) :
    runLoop (round size) n v ≠ .done a :=
  loop_goes_on (fun _ hs => hung_round hsize hs) h n a

/-- The variables at the head of the loop, of a call that is not to hang. -/
structure Live (size : Int) (v : Vars) : Prop where
  readFds : v.readFds = true
  count : 0 ≤ v.count
  fd : ¬ HangsUp (size - v.count) v.fd

/-- One turn leaves the loop, or brings bytes, or finds the end of the file. -/
theorem live_round (hsize : size < 2 ^ 31) (h : Live size v) :
    (∃ a, round size v = .leave a) ∨
    ∃ v', round size v = .next v' ∧ Live size v' ∧ v.count ≤ v'.count ∧ v'.count < size ∧
      v'.fd = next v.fd ∧ (v.count < v'.count ∨ v.fd 0 = eof) := by
  have hv0 := h.count
  cases round_turn size h.readFds with
  | more bs hbs hlt hr =>
    have hreq := sizeT_eq (n := size - v.count) (by rw [took_count] at hlt; omega) (by omega)
    have hshort : (bs.val.length : Int) < size - v.count := by
      have hlen : (v.got size bs).length = min (sizeT (size - v.count)) bs.val.length :=
        List.length_take
      rw [took_count] at hlt
      omega
    have hcount : (v.took (v.got size bs)).count = v.count + bs.val.length := by
      rw [took_count, got_short hshort (by omega)]
    refine .inr ⟨_, hr, ⟨h.readFds, by omega, fun hhang => h.fd ?_⟩, by omega, hlt, rfl, ?_⟩
    · refine hangsUp_iff.mpr ⟨bs, hbs, hshort, ?_⟩
      rw [hcount, ← Int.sub_sub] at hhang
      exact hhang
    · rcases Nat.eq_zero_or_pos bs.val.length with hnil | hpos
      · refine .inr ?_
        rw [hbs, eof]
        exact congrArg Answer.read (Subtype.ext (List.eq_nil_of_length_eq_zero hnil))
      · exact .inl (by omega)
  | done bs _ _ hr => exact .inl ⟨_, hr⟩
  | failed ret w hr => exact .inl ⟨_, hr⟩

/-- **Without a hang-up it does.** A turn that brings bytes comes closer to the end, and among
    the others there is a first that is not the end of the file. -/
theorem live_returns (hsize : size < 2 ^ 31) (m : Nat) : ∀ {v : Vars}, Live size v →
    size - v.count ≤ m → ∃ n a, runLoop (round size) n v = .done a := by
  induction m with
  | zero =>
    intro v h hm
    rcases live_round hsize h with ⟨a, hr⟩ | ⟨v', hr, -, hle, hlt, -⟩
    · exact ⟨1, a, loop_leave hr 0⟩
    · omega
  | succ m ihm =>
    have hturns : ∀ t, ∀ {v : Vars}, Live size v → size - v.count ≤ (m + 1 : Nat) →
        v.fd t ≠ eof → ∃ n a, runLoop (round size) n v = .done a := by
      intro t
      induction t with
      | zero =>
        intro v h hm ht
        rcases live_round hsize h with ⟨a, hr⟩ | ⟨v', hr, h', -, -, -, hgrow | heof⟩
        · exact ⟨1, a, loop_leave hr 0⟩
        · obtain ⟨n, a, hrun⟩ := ihm h' (by omega)
          exact ⟨n + 1, a, (loop_next hr n).trans hrun⟩
        · exact absurd heof ht
      | succ t iht =>
        intro v h hm ht
        rcases live_round hsize h with ⟨a, hr⟩ | ⟨v', hr, h', hle, -, hfd, -⟩
        · exact ⟨1, a, loop_leave hr 0⟩
        · have ht' : v'.fd t ≠ eof := by
            rw [hfd]
            exact ht
          obtain ⟨n, a, hrun⟩ := iht h' (by omega) ht'
          exact ⟨n + 1, a, (loop_next hr n).trans hrun⟩
    intro v h hm
    by_cases hall : ∀ t, v.fd t = eof
    · by_cases hleft : 0 < size - v.count
      · exact absurd ⟨0, fun t ht => absurd ht (Nat.not_lt_zero t), hleft, fun t _ => hall t⟩ h.fd
      · exact ihm h (by omega)
    · obtain ⟨t, ht⟩ := not_forall.mp hall
      exact hturns t h hm ht

/-! ## 5. The call -/

/-- **A read that comes back**: the call returns, and 0 only if exactly `size` bytes have
    arrived, which stand in the buffer in the order they came. -/
def ReadsBack (size : BitVec 32) (buff : Int → Byte) (fd : Nat → Answer) : Prop :=
  (∃ r, Returns (lsepcRead fd buff size) r) ∧
  ∀ ret v, Returns (lsepcRead fd buff size) (ret, v) → ret = 0 →
    (v.arrived.length : Int) = size.toInt ∧
    ∀ (i : Nat) (h : i < v.arrived.length), v.b i = v.arrived[i]

theorem stored_start (fd : Nat → Answer) (buff : Int → Byte) : Stored (start fd buff) :=
  ⟨rfl, rfl, fun i h => absurd h (Nat.not_lt_zero i)⟩

theorem filling_start (fd : Nat → Answer) (buff : Int → Byte) (h0 : 0 ≤ size) :
    Filling size (start fd buff) := ⟨stored_start fd buff, Int.le_refl 0, h0⟩

theorem hung_start (buff : Int → Byte) (h : HangsUp size fd) : Hung size (start fd buff) := by
  refine ⟨rfl, Int.le_refl 0, ?_⟩
  rw [start, Int.sub_zero]
  exact h

/-- What a call of a size that is not negative returns is what the model of the library's read
    returns, on the bytes that have arrived. -/
theorem lsepcRead_runs {size : BitVec 32} {buff : Int → Byte} {ret : Int} (h0 : 0 ≤ size.toInt)
    (h : Returns (lsepcRead fd buff size) (ret, v)) :
    ∃ tr, Client.received tr = v.arrived ∧
      Client.Runs Fails (Host.lsepcRead size.toInt.toNat) tr
        (if ret = 0 then .ok v.arrived else .error (ret, v.arrived)) := by
  obtain ⟨n, h⟩ := h
  have hsize : size.toInt < 2 ^ 31 := BitVec.toInt_lt
  obtain ⟨tr, harr, hrun⟩ := loop_runs hsize (filling_start fd buff h0) h
  exact ⟨tr, harr.symm, hrun⟩

/-- **When a read comes back**: exactly if the descriptor does not hang up before all bytes have
    come. A negative size, which no caller passes, must find it not readable or failing. -/
theorem lsepc_read_returns_iff (size : BitVec 32) (buff : Int → Byte) (fd : Nat → Answer) :
    ReadsBack size buff fd ↔
      ¬ HangsUp size.toInt fd ∧ (size.toInt < 0 → ∀ bs, fd 0 ≠ .read bs) := by
  have hsize : size.toInt < 2 ^ 31 := BitVec.toInt_lt
  have hstart := stored_start fd buff
  constructor
  · rintro ⟨⟨a, n, hret⟩, hzero⟩
    refine ⟨fun hhang => ?_, fun hneg bs hbs => ?_⟩
    · exact hangs_never hsize (hung_start buff hhang) n a hret
    · -- any read ends the loop with 0
      have hround := round_read size.toInt hstart.readFds hbs
      have hcount : (start fd buff).count = 0 := rfl
      rw [if_neg (by rw [took_count]; omega)] at hround
      have hlen := (hzero 0 _ ⟨1, loop_leave hround 0⟩ rfl).1
      omega
  · rintro ⟨hnot, hneg⟩
    by_cases h0 : 0 ≤ size.toInt
    · have hlive : Live size.toInt (start fd buff) :=
        ⟨rfl, Int.le_refl 0, fun hhang => hnot (by rwa [start, Int.sub_zero] at hhang)⟩
      have hleft : size.toInt - (start fd buff).count ≤ size.toInt.toNat := by
        rw [start, Int.sub_zero]
        exact Int.self_le_toNat _
      obtain ⟨n, a, hrun⟩ := live_returns hsize size.toInt.toNat hlive hleft
      refine ⟨⟨a, n, hrun⟩, fun ret v ⟨n, hrun⟩ hret => ?_⟩
      rw [hret] at hrun
      obtain ⟨hstored, hcount⟩ := returns_zero hsize (filling_start fd buff h0) hrun
      exact ⟨hstored.count.symm.trans hcount, hstored.bytes⟩
    · obtain ⟨ret, w, hr, hfail, -⟩ := round_failed size.toInt hstart.readFds
        (hneg (Int.not_le.mp h0))
      refine ⟨⟨_, 1, loop_leave hr 0⟩, fun ret' v ⟨n, hrun⟩ hret => ?_⟩
      cases loop_unique hrun (loop_leave hr 0)
      exact absurd hret (fails_ne hfail)

/-- A line that has been hung up: one byte is asked for, and none ever comes. -/
theorem lsepc_read_hangs : ¬ ReadsBack 1 (fun _ => 0) fun _ => eof := by
  rintro ⟨⟨a, n, hret⟩, -⟩
  have hhang : HangsUp 1 fun _ => eof :=
    ⟨0, fun t ht => absurd ht (Nat.not_lt_zero t), by decide, fun t _ => rfl⟩
  exact hangs_never (by decide) (hung_start _ hhang) n a hret

example : (lsepcRead (fun t => if t = 0 then .read ⟨[1], by decide⟩ else .read ⟨[2, 3], by decide⟩)
    (fun _ => 0) 2 3).bind (fun r => .done (r.1, r.2.arrived)) = .done (0, [1, 2]) := by decide

end LsePc.Host.ReadLoop
