/-
  File:      LsePc/Bridge/OcdRoutine.lean
  Subject:   Whole routines on the OCD unit: one completed instruction after the other.

  A routine waits an arbitrary number of clocks at its WAIT and HOLD instructions, but a
  clock of waiting leaves no trace once the instruction completes. So a routine is
  described by the pins of the clocks in which its instructions complete, its BUS.

  * `finish`, `finishes`: the next completed instruction, the first `n` of them;
  * `steps_finish`: waiting first makes no difference;
  * `toExit`: the routine up to its EXIT;
  * `driven`, `captured`: the words it puts on the data bus and takes from it;
  * `Schedule`, `run_exits`: where every wait ends, ocd.v completes instruction after
    instruction as `finish` says; `Schedule.exit`: and comes to the state of `toExit`.
-/
import LsePc.Bridge.OcdReadme

namespace LsePc.Bridge

open LsePc.Lib

/-! ## 1. Completed instructions -/

/-- The pins with the wait condition of an instruction met. -/
def OcdIn.released (i : OcdIn) (w : Word) : OcdIn :=
  if execWait w i then { i with adsN := false, lockN := false, hlda := true, mio := false } else i

namespace Arch

/-- The instruction at `pc`, completed on the pins `i`. -/
def finish (σ : Arch) (i : OcdIn) : Arch := σ.step (i.released σ.instr)

/-- The first `n` instructions, the `k`th completed on `bus k`. -/
def finishes (σ : Arch) (bus : Nat → OcdIn) : Nat → Arch
  | 0 => σ
  | n + 1 => (finishes σ bus n).finish (bus n)

@[simp] theorem finishes_zero (σ : Arch) (bus : Nat → OcdIn) : σ.finishes bus 0 = σ := rfl

theorem finishes_succ (σ : Arch) (bus : Nat → OcdIn) (n : Nat) :
    σ.finishes bus (n + 1) = (σ.finishes bus n).finish (bus n) := rfl

theorem finishes_add (σ : Arch) (bus : Nat → OcdIn) (m n : Nat) :
    σ.finishes bus (m + n) = (σ.finishes bus m).finishes (fun k => bus (m + k)) n := by
  induction n with
  | zero => rfl
  | succ n ih => rw [← Nat.add_assoc, finishes_succ, finishes_succ, ih]

/-- The first `n` instructions read the first `n` pins of the bus. -/
theorem finishes_congr {σ : Arch} {bus bus' : Nat → OcdIn} {n : Nat}
    (h : ∀ m < n, bus m = bus' m) : σ.finishes bus n = σ.finishes bus' n := by
  induction n with
  | zero => rfl
  | succ n ih =>
    rw [finishes_succ, finishes_succ, ih fun m hm => h m (Nat.lt_succ_of_lt hm),
      h n (Nat.lt_succ_self n)]

theorem finishes_prog (σ : Arch) (bus : Nat → OcdIn) (n : Nat) (p : BitVec 8) :
    (σ.finishes bus n).prog p = σ.prog p := by
  induction n with
  | zero => rfl
  | succ n ih => rw [finishes_succ, finish, step_prog, ih]

theorem finish_eq_step {σ : Arch} {i : OcdIn} (h : execWait σ.instr i = false) :
    σ.finish i = σ.step i := by
  unfold finish OcdIn.released
  rw [if_neg (by simp [h])]

/-- **A clock of waiting leaves no trace** once the instruction completes. -/
theorem step_wait_step {σ : Arch} {i j : OcdIn} (hi : execWait σ.instr i = true)
    (hj : execWait σ.instr j = false) :
    (σ.step i).instr = σ.instr ∧ (σ.step i).step j = σ.step j := by
  rw [execWait_readme] at hi hj
  have hsame := step_wait_same σ i hi
  refine ⟨hsame.instr, ?_⟩
  rw [step, hsame.instr, step, step]
  cases hm : mnem σ.instr with
  | none => simp [hm, readmeWaits] at hi
  | some m =>
    cases m <;> simp [hm, readmeWaits] at hi hj <;>
      simp [exec, ack, caught, next, hi, hj]

/-- Waiting first makes no difference. -/
theorem steps_finish (is : List OcdIn) {σ : Arch} {i : OcdIn}
    (hi : ∀ j ∈ is, execWait σ.instr j = true) (hgo : execWait σ.instr i = false) :
    (σ.steps is).step i = σ.finish i := by
  rw [finish_eq_step hgo]
  induction is generalizing σ with
  | nil => rfl
  | cons j is ih =>
    obtain ⟨hin, hst⟩ := step_wait_step (hi j List.mem_cons_self) hgo
    rw [steps_cons, ih, hst]
    · rw [hin]
      exact fun k hk => hi k (List.mem_cons_of_mem j hk)
    · rw [hin]
      exact hgo

end Arch

/-! ## 2. What a routine leaves -/

namespace Arch

/-- The unit in EXIT. -/
def halt (σ : Arch) : Arch := { σ with stop := true }

@[simp] theorem halt_stop (σ : Arch) : σ.halt.stop = true := rfl
@[simp] theorem halt_instr (σ : Arch) : σ.halt.instr = σ.instr := rfl
@[simp] theorem halt_reg (σ : Arch) (r : BitVec 4) : σ.halt.reg r = σ.reg r := rfl
@[simp] theorem halt_halt (σ : Arch) : σ.halt.halt = σ.halt := rfl

theorem finish_exit {σ : Arch} (hm : mnem σ.instr = some .exit) (i : OcdIn) :
    σ.finish i = σ.halt := by
  rw [finish, step, hm]
  rfl

/-- Only EXIT sets `stop`, and nothing clears it. -/
theorem step_stop (σ : Arch) (i : OcdIn) :
    (σ.step i).stop = (σ.stop || decide (mnem σ.instr = some .exit)) := by
  unfold step
  cases hm : mnem σ.instr with
  | none => simp [exec, next]
  | some m =>
    cases m <;> simp only [exec] <;> (try split) <;>
      simp [next, goto, ack, caught, setReg]

theorem finish_stop (σ : Arch) (i : OcdIn) :
    (σ.finish i).stop = (σ.stop || decide (mnem σ.instr = some .exit)) := σ.step_stop _

/-- The routine at `pc` until its EXIT has set `stop`, in at most `n` instructions. -/
def toExit (σ : Arch) (bus : Nat → OcdIn) : Nat → Option Arch
  | 0 => none
  | n + 1 =>
    if σ.stop then some σ else (σ.finish (bus 0)).toExit (fun k => bus (k + 1)) n

theorem toExit_stop {σ τ : Arch} {bus : Nat → OcdIn} {n : Nat}
    (h : σ.toExit bus n = some τ) : τ.stop = true := by
  induction n generalizing σ bus with
  | zero => cases h
  | succ n ih =>
    rw [toExit] at h
    split at h
    case isTrue hs =>
      cases h
      exact hs
    case isFalse => exact ih h

/-- A routine that comes to its EXIT after `n` instructions. -/
theorem toExit_eq {σ : Arch} (hs : σ.stop = false) {bus : Nat → OcdIn} {n fuel : Nat}
    (hne : ∀ m < n, mnem (σ.finishes bus m).instr ≠ some .exit)
    (hex : mnem (σ.finishes bus n).instr = some .exit) (hn : n + 2 ≤ fuel) :
    σ.toExit bus fuel = some (σ.finishes bus n).halt := by
  induction n generalizing σ bus fuel with
  | zero =>
    obtain ⟨fuel, rfl⟩ := Nat.exists_eq_add_of_le hn
    rw [Nat.add_comm, toExit, hs, toExit]
    simp [show σ.finish (bus 0) = σ.halt from finish_exit hex _]
  | succ n ih =>
    obtain ⟨fuel, rfl⟩ := Nat.exists_eq_add_of_le hn
    have hshift : ∀ m, σ.finishes bus (m + 1) =
        (σ.finish (bus 0)).finishes (fun k => bus (k + 1)) m := by
      intro m
      rw [Nat.add_comm m 1, finishes_add]
      simp only [Nat.add_comm 1]
      rfl
    have h0 : mnem σ.instr ≠ some .exit := hne 0 (Nat.succ_pos n)
    have hs1 : (σ.finish (bus 0)).stop = false := by simp [finish_stop, hs, h0]
    rw [show n + 1 + 2 + fuel = (n + 2 + fuel) + 1 by omega, toExit, hs]
    simp only [Bool.false_eq_true, if_false]
    rw [hshift] at hex
    rw [hshift, ih hs1 (fun m hm => ?_) hex (by omega)]
    rw [← hshift]
    exact hne (m + 1) (by omega)

/-- What the instruction at `pc` puts on the data bus. -/
def drives (σ : Arch) : Option Word := if instrStd σ.instr then some σ.operand else none

/-- The words the first `n` instructions put on the data bus, in order. -/
def driven (σ : Arch) (bus : Nat → OcdIn) (n : Nat) : List Word :=
  (List.range n).filterMap fun k => (σ.finishes bus k).drives

theorem driven_succ (σ : Arch) (bus : Nat → OcdIn) (n : Nat) :
    σ.driven bus (n + 1) = σ.driven bus n ++ (σ.finishes bus n).drives.toList := by
  unfold driven
  rw [List.range_succ, List.filterMap_append]
  cases h : (σ.finishes bus n).drives <;> simp [h]

/-- The words the first `n` instructions load from the data bus (LDD), in order. -/
def captured (σ : Arch) (bus : Nat → OcdIn) (n : Nat) : List Word :=
  ((List.range n).filter fun k => instrLdd (σ.finishes bus k).instr).map fun k => (bus k).din

theorem captured_succ (σ : Arch) (bus : Nat → OcdIn) (n : Nat) :
    σ.captured bus (n + 1) = σ.captured bus n ++
      if instrLdd (σ.finishes bus n).instr then [(bus n).din] else [] := by
  unfold captured
  rw [List.range_succ, List.filter_append, List.map_append]
  cases h : instrLdd (σ.finishes bus n).instr <;> simp [h]

/-- Past its EXIT a routine does nothing. -/
theorem finishes_exit {σ : Arch} {bus : Nat → OcdIn} {n : Nat}
    (hex : mnem (σ.finishes bus n).instr = some .exit) (k : Nat) :
    σ.finishes bus (n + k + 1) = (σ.finishes bus n).halt := by
  induction k with
  | zero => exact finish_exit hex _
  | succ k ih =>
    rw [← Nat.add_assoc, finishes_succ, ih]
    have hm : mnem (σ.finishes bus n).halt.instr = some .exit := hex
    exact finish_exit hm _

theorem driven_exit {σ : Arch} {bus : Nat → OcdIn} {n : Nat}
    (hex : mnem (σ.finishes bus n).instr = some .exit) (k : Nat) :
    σ.driven bus (n + k) = σ.driven bus n ∧ σ.captured bus (n + k) = σ.captured bus n := by
  induction k with
  | zero => exact ⟨rfl, rfl⟩
  | succ k ih =>
    have hm : mnem (σ.finishes bus (n + k)).instr = some .exit := by
      cases k with
      | zero => exact hex
      | succ k =>
        rw [← Nat.add_assoc, finishes_exit hex k]
        exact hex
    rw [← Nat.add_assoc, driven_succ, captured_succ, ih.1, ih.2]
    simp [drives, wires, hm]

end Arch

/-! ## 3. ocd.v completes instructions as `finish` says -/

/-- No WAIT or HOLD the unit comes to lasts for ever. -/
def WaitsEnd (x : OcdSys) (inp : Nat → OcdIn) : Prop :=
  ∀ t, AtFetch (x.run inp t) → mnem (x.run inp t).arch.instr ≠ some .exit →
    ∃ u ≥ t + 2, execWait (x.run inp t).arch.instr (inp u) = false

/-- The unit `n` clocks later. -/
theorem OcdSys.run_add (x : OcdSys) (inp : Nat → OcdIn) (m n : Nat) :
    x.run inp (m + n) = (x.run inp m).run (fun k => inp (m + k)) n :=
  clocks_add OcdSys.clk x inp m n

theorem WaitsEnd.shift {x : OcdSys} {inp : Nat → OcdIn} (h : WaitsEnd x inp) (n : Nat) :
    WaitsEnd (x.run inp n) fun k => inp (n + k) := by
  intro t hf hne
  rw [← OcdSys.run_add] at hf hne ⊢
  obtain ⟨u, hu, hgo⟩ := h (n + t) hf hne
  refine ⟨u - n, by omega, ?_⟩
  show execWait _ (inp (n + (u - n))) = false
  rwa [show n + (u - n) = u by omega]

/-- Pins on which no instruction but EXIT waits. -/
theorem waitsEnd_const (i : OcdIn) (hads : i.adsN = false) (hlock : i.lockN = false)
    (hmio : i.mio = false) (hhlda : i.hlda = true) (x : OcdSys) : WaitsEnd x fun _ => i := by
  intro t _ hne
  refine ⟨t + 2, le_refl _, ?_⟩
  rw [execWait_readme]
  cases hm : mnem (x.run (fun _ => i) t).arch.instr with
  | none => rfl
  | some m =>
    cases m
    case exit => exact absurd hm hne
    all_goals simp [readmeWaits, hads, hlock, hmio, hhlda]

/-- From one FETCH to the next: the instruction completes in the first clock `k` of its EXEC
    in which it need not wait, on the pins of that clock. -/
theorem run_finish {x : OcdSys} (h : AtFetch x) (inp : Nat → OcdIn) (k : Nat)
    (hwait : ∀ j < k, execWait x.arch.instr (inp (2 + j)) = true)
    (hgo : execWait x.arch.instr (inp (2 + k)) = false) :
    AtFetch (x.run inp (5 + k)) ∧ (x.run inp (5 + k)).arch = x.arch.finish (inp (2 + k)) := by
  have hwait' := hwait
  have hgo' := hgo
  simp only [execWait_readme] at hwait' hgo'
  obtain ⟨hf, ha⟩ := run_completes h inp k hwait' hgo'
  refine ⟨hf, ha.trans ?_⟩
  -- the waits before it are steps of the same instruction
  have hsteps : ∀ n ≤ k, (x.run inp (2 + n)).arch =
      x.arch.steps ((List.range n).map fun j => inp (2 + j)) := by
    intro n hn
    induction n with
    | zero =>
      obtain ⟨h1, a1⟩ := atFetch_clk h (inp 0)
      exact (atLoad_clk h1 (inp 1)).2.trans a1
    | succ n ih =>
      obtain ⟨hx, hs, _⟩ := run_wait h inp n fun j hj => hwait' j (by omega)
      have hw := hwait n (by omega)
      rw [← hs.instr] at hw
      rw [List.range_succ, List.map_append, Arch.steps_append, ← ih (by omega)]
      exact (atExec_wait hx (inp (2 + n)) hw).2
  rw [hsteps k (le_refl k)]
  refine Arch.steps_finish _ (fun j hj => ?_) hgo
  obtain ⟨n, hn, rfl⟩ := List.mem_map.mp hj
  exact hwait n (List.mem_range.mp hn)

/-- From FETCH to EXEC. -/
theorem run_fetched {x : OcdSys} {inp : Nat → OcdIn} {f : Nat} (hf : AtFetch (x.run inp f)) :
    AtExec (x.run inp (f + 2)) ∧ (x.run inp (f + 2)).arch = (x.run inp f).arch := by
  obtain ⟨h1, a1⟩ := atFetch_clk hf (inp f)
  obtain ⟨h2, a2⟩ := atLoad_clk h1 (inp (f + 1))
  exact ⟨h2, a2.trans a1⟩

/-- From FETCH to FETCH, the instruction not waiting. -/
theorem run_next {x : OcdSys} {inp : Nat → OcdIn} {f : Nat} (hf : AtFetch (x.run inp f))
    (hgo : execWait (x.run inp f).arch.instr (inp (f + 2)) = false) :
    AtFetch (x.run inp (f + 5)) ∧
      (x.run inp (f + 5)).arch = (x.run inp f).arch.step (inp (f + 2)) := by
  obtain ⟨hf', ha⟩ := run_finish hf (fun n => inp (f + n)) 0
    (fun j hj => absurd hj (Nat.not_lt_zero j)) hgo
  rw [← OcdSys.run_add] at hf' ha
  exact ⟨hf', ha.trans (Arch.finish_eq_step hgo)⟩

/-- The clock of the FETCH of instruction `m`, from the clocks `go` of completion. -/
def fetchClock (go : Nat → Nat) : Nat → Nat
  | 0 => 0
  | m + 1 => go m + 3

/-- Instruction `m` completes in clock `go m`, on the pins of that clock. -/
structure Schedule (x : OcdSys) (inp : Nat → OcdIn) (n : Nat) (go : Nat → Nat) : Prop where
  fetch : ∀ m ≤ n, AtFetch (x.run inp (fetchClock go m))
  arch : ∀ m ≤ n, (x.run inp (fetchClock go m)).arch =
    x.arch.finishes (fun k => inp (go k)) m
  exec : ∀ m < n, fetchClock go m + 2 ≤ go m
  waits : ∀ m < n, ∀ u, fetchClock go m + 2 ≤ u → u < go m →
    execWait (x.run inp (fetchClock go m)).arch.instr (inp u) = true
  done : ∀ m < n, execWait (x.run inp (fetchClock go m)).arch.instr (inp (go m)) = false

/-- A schedule extended by one instruction. -/
theorem Schedule.extend {x : OcdSys} {inp : Nat → OcdIn} {n : Nat} {go : Nat → Nat}
    (h : Schedule x inp n go)
    (hex : ∃ u ≥ fetchClock go n + 2,
      execWait (x.run inp (fetchClock go n)).arch.instr (inp u) = false) :
    ∃ go', Schedule x inp (n + 1) go' ∧ ∀ m < n, go' m = go m := by
  generalize hτ : (x.run inp (fetchClock go n)).arch = τ at hex
  have hex' : ∃ k, execWait τ.instr (inp (fetchClock go n + (2 + k))) = false := by
    obtain ⟨u, hu, hgo⟩ := hex
    exact ⟨u - (fetchClock go n + 2),
      by rwa [show fetchClock go n + (2 + (u - (fetchClock go n + 2))) = u by omega]⟩
  obtain ⟨k, hwait, hgo⟩ := exists_first hex'
  subst hτ
  obtain ⟨hf', ha'⟩ := run_finish (h.fetch n (le_refl n))
    (fun j => inp (fetchClock go n + j)) k hwait hgo
  generalize hgn : fetchClock go n + (2 + k) = gn at hgo ha'
  have hnew : fetchClock go n + (5 + k) = gn + 3 := by omega
  rw [← OcdSys.run_add, hnew] at hf' ha'
  have hold : ∀ m < n, Function.update go n gn m = go m := fun m hm =>
    Function.update_of_ne (Nat.ne_of_lt hm) _ _
  have hclock : ∀ m ≤ n, fetchClock (Function.update go n gn) m = fetchClock go m := by
    intro m hm
    cases m with
    | zero => rfl
    | succ m => rw [fetchClock, fetchClock, hold m (by omega)]
  have hlast : fetchClock (Function.update go n gn) (n + 1) = gn + 3 := by
    rw [fetchClock, Function.update_self]
  have hbus : ∀ m ≤ n, x.arch.finishes (fun k => inp (Function.update go n gn k)) m =
      x.arch.finishes (fun k => inp (go k)) m := fun m hm =>
    Arch.finishes_congr fun j hj => by rw [hold j (by omega)]
  refine ⟨Function.update go n gn, ⟨fun m hm => ?_, fun m hm => ?_, fun m hm => ?_,
    fun m hm u hu hlt => ?_, fun m hm => ?_⟩, hold⟩
  · rcases Nat.lt_or_eq_of_le hm with hlt | rfl
    · rw [hclock m (by omega)]
      exact h.fetch m (by omega)
    · rw [hlast]
      exact hf'
  · rcases Nat.lt_or_eq_of_le hm with hlt | rfl
    · rw [hclock m (by omega), hbus m (by omega)]
      exact h.arch m (by omega)
    · rw [hlast, Arch.finishes_succ, hbus n (le_refl n), Function.update_self,
        ← h.arch n (le_refl n)]
      exact ha'
  · rcases Nat.lt_succ_iff_lt_or_eq.mp hm with hlt | rfl
    · rw [hclock m (by omega), hold m hlt]
      exact h.exec m hlt
    · rw [hclock m (le_refl m), Function.update_self]
      omega
  · rcases Nat.lt_succ_iff_lt_or_eq.mp hm with hm' | rfl
    · rw [hclock m (by omega)] at hu ⊢
      rw [hold m hm'] at hlt
      exact h.waits m hm' u hu hlt
    · rw [hclock m (le_refl m)] at hu ⊢
      rw [Function.update_self] at hlt
      have hw := hwait (u - (fetchClock go m + 2)) (by omega)
      rwa [show fetchClock go m + (2 + (u - (fetchClock go m + 2))) = u by omega] at hw
  · rcases Nat.lt_succ_iff_lt_or_eq.mp hm with hlt | rfl
    · rw [hclock m (by omega), hold m hlt]
      exact h.done m hlt
    · rw [hclock m (le_refl m), Function.update_self]
      exact hgo

/-- Instruction by instruction, the unit completes one more or has come to EXIT. -/
theorem run_schedule {x : OcdSys} (h : AtFetch x) {inp : Nat → OcdIn} (hl : WaitsEnd x inp)
    (n : Nat) :
    ∃ go m, Schedule x inp m go ∧
      (∀ j < m, mnem (x.arch.finishes (fun k => inp (go k)) j).instr ≠ some .exit) ∧
      (m = n ∨ mnem (x.arch.finishes (fun k => inp (go k)) m).instr = some .exit) := by
  induction n with
  | zero =>
    refine ⟨fun _ => 0, 0, ⟨fun m hm => ?_, fun m hm => ?_, fun m hm => ?_, fun m hm => ?_,
      fun m hm => ?_⟩, fun m hm => ?_, Or.inl rfl⟩
    · rw [Nat.le_zero.mp hm]
      exact h
    · rw [Nat.le_zero.mp hm]
      rfl
    all_goals exact absurd hm (Nat.not_lt_zero m)
  | succ n ih =>
    obtain ⟨go, m, hgo, hne, hend⟩ := ih
    by_cases hex : mnem (x.arch.finishes (fun k => inp (go k)) m).instr = some .exit
    · exact ⟨go, m, hgo, hne, Or.inr hex⟩
    · obtain rfl : m = n := hend.resolve_right hex
      rw [← hgo.arch m (le_refl m)] at hex
      obtain ⟨go', hgo', hbus⟩ := hgo.extend (hl _ (hgo.fetch m (le_refl m)) hex)
      refine ⟨go', m + 1, hgo', fun j hj => ?_, Or.inl rfl⟩
      have hsame : x.arch.finishes (fun k => inp (go' k)) j =
          x.arch.finishes (fun k => inp (go k)) j :=
        Arch.finishes_congr fun i hi => by rw [hbus i (by omega)]
      rw [hsame]
      rcases Nat.lt_succ_iff_lt_or_eq.mp hj with hj | rfl
      · exact hne j hj
      · rw [← hgo.arch j (le_refl j)]
        exact hex

/-- **A routine that comes to EXIT on every bus comes to EXIT on ocd.v** where every wait
    ends. -/
theorem run_exits {x : OcdSys} (h : AtFetch x) {inp : Nat → OcdIn} (hl : WaitsEnd x inp)
    {n : Nat} (hall : ∀ bus, ∃ m < n, mnem (x.arch.finishes bus m).instr = some .exit) :
    ∃ go m, m < n ∧ Schedule x inp m go ∧
      (∀ j < m, mnem (x.arch.finishes (fun k => inp (go k)) j).instr ≠ some .exit) ∧
      mnem (x.arch.finishes (fun k => inp (go k)) m).instr = some .exit := by
  obtain ⟨go, m, hgo, hne, hend⟩ := run_schedule h hl n
  obtain ⟨m', hm', hex'⟩ := hall fun k => inp (go k)
  have hle : m ≤ m' := Nat.le_of_not_lt fun hlt => hne m' hlt hex'
  exact ⟨go, m, by omega, hgo, hne, hend.resolve_left (by omega)⟩

/-- In EXIT the unit stays in EXEC with `stop` set. -/
theorem AtExec.exit {x : OcdSys} (h : AtExec x) (hm : mnem x.arch.instr = some .exit)
    (inp : Nat → OcdIn) (k : Nat) :
    AtExec (x.run inp (k + 1)) ∧ (x.run inp (k + 1)).arch = x.arch.halt := by
  have hstep : ∀ {y : OcdSys}, AtExec y → mnem y.arch.instr = some .exit → ∀ i,
      AtExec (y.clk i) ∧ (y.clk i).arch = y.arch.halt := by
    intro y hy hmy i
    have hw : execWait y.arch.instr i = true := by
      rw [execWait_readme, hmy]
      rfl
    obtain ⟨h1, h2⟩ := atExec_wait hy i hw
    refine ⟨h1, h2.trans ?_⟩
    rw [Arch.step, hmy]
    rfl
  induction k with
  | zero => exact hstep h hm (inp 0)
  | succ k ih =>
    obtain ⟨hk, ha⟩ := ih
    have hmk : mnem (x.run inp (k + 1)).arch.instr = some .exit := by
      rw [ha]
      exact hm
    obtain ⟨h1, h2⟩ := hstep hk hmk (inp (k + 1))
    refine ⟨h1, h2.trans ?_⟩
    rw [ha, Arch.halt_halt]

/-- **The unit comes to EXIT and stays there**, in the state `toExit` gives. -/
theorem Schedule.exit {x : OcdSys} {inp : Nat → OcdIn} {n : Nat} {go : Nat → Nat}
    (h : Schedule x inp n go) (hs : x.arch.stop = false)
    (hne : ∀ m < n, mnem (x.arch.finishes (fun k => inp (go k)) m).instr ≠ some .exit)
    (hex : mnem (x.arch.finishes (fun k => inp (go k)) n).instr = some .exit)
    {fuel : Nat} (hn : n + 2 ≤ fuel) {t : Nat} (ht : fetchClock go n + 3 ≤ t) :
    x.arch.toExit (fun k => inp (go k)) fuel = some (x.run inp t).arch := by
  obtain ⟨k, rfl⟩ := Nat.exists_eq_add_of_le ht
  have hf := h.fetch n (le_refl n)
  rw [Arch.toExit_eq hs hne hex hn, ← h.arch n (le_refl n)]
  rw [← h.arch n (le_refl n)] at hex
  obtain ⟨hexec, ha⟩ := run_fetched hf
  rw [← ha] at hex ⊢
  rw [show fetchClock go n + 3 + k = fetchClock go n + 2 + (k + 1) by omega,
    x.run_add inp (fetchClock go n + 2) (k + 1)]
  exact congrArg some (hexec.exit hex _ k).2.symm

end LsePc.Bridge
