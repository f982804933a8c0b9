/-
  File:      LsePc/Supervisor/Report.lean
  Subject:   The routines that let the CPU go on, clock by clock, and what sv_iobreak
             makes of the I/O access that ends them.

  ocd_prgm_start, ocd_prgm_write_io and ocd_prgm_cont end with the same five instructions:
  DETACH, WAITIO, LDAL R1, LDWR R2, EXIT. The address and the direction of the access are
  read five and ten clocks after it has been caught.

  * `DetachAt`, `TrapAt`, `readyPin`, `CpuHolds`: what is seen of a run on the pins, and
    how long the CPU holds an access;
  * `ResumeCode`, `Levels`, `resume_runs`: the five instructions, and the outputs before each;
  * `trap_first`, `trap_stops`, `en_iff`: which access is caught, when the unit stops and when
    it is attached;
  * `svIobreak_notes`: what sv_iobreak makes of R1, R2 and the data bus;
  * **result** (`resume_reports`): the routines stop at the first access and report it.
-/
import LsePc.Supervisor.Callbacks
import LsePc.Bridge.OcdStraight
import LsePc.Bridge.Memory

namespace LsePc.Supervisor

open LsePc.Bridge

/-! ## 1. On the pins -/

/-- ADS# and M/IO# are low: an I/O access begins. -/
def Begins (i : OcdIn) : Prop := i.adsN = false ∧ i.mio = false

section Pins

variable (y : OcdSys) (inp : Nat → OcdIn)

/-- DETACH is in EXEC. -/
def DetachAt (e : Nat) : Prop :=
  (y.run inp e).ocd.state = .exec ∧ instrDetach (y.run inp e).ocd.instr = true

/-- An I/O access begins while the unit is in WAITIO. -/
def TrapAt (t : Nat) : Prop :=
  (y.run inp t).ocd.state = .exec ∧ instrWaitio (y.run inp t).ocd.instr = true ∧ Begins (inp t)

/-- The unit at clock `u`: from clock `T` on `rst` is held, at `T'` it is released with
    ocd_prgm_read_io in the memory. -/
def readIoUnit (T T' u : Nat) : Ocd :=
  if u < T then (y.run inp u).ocd
  else if u < T' then resetOcd (y.run inp T).ocd
  else ((load ocdPrgmReadIo (y.run inp T)).run (fun n => inp (T' + n)) (u - T')).ocd

end Pins

/-- `_ready` of top_level.v. -/
def readyPin (o : Ocd) (bcReadyN : Bool) : Bool := if o.en then o.readyN else bcReadyN

/-- It is the pin of the bridge. -/
theorem topLevel_readyN (x : TopLevel) (i : Pins) (o : Ocd) :
    x.readyN { i with ocdEn := o.en, svReadyN := o.readyN } = readyPin o x.bc.readyN := rfl

/-- The trace `ready` of READY# is the one of the unit `o` before clock `n`; what bus_control.v
    drives is arbitrary. -/
def ReadyOf (o : Nat → Ocd) (bcReadyN : Nat → Bool) (ready : Nat → Bool) (n : Nat) : Prop :=
  ∀ u < n, ready u = readyPin (o u) (bcReadyN u)

/-- The CPU holds the access `a`, begun in clock `t`, until READY#. It samples READY# at the
    end of T2, so not in the two clocks from ADS# on. -/
def CpuHolds (ready : Nat → Bool) (inp : Nat → OcdIn) (t : Nat) (a : Access) : Prop :=
  ∀ u ≥ t, (∀ v, t + 2 ≤ v → v < u → ready v = true) → Shows (inp u) a

/-! ## 2. The five instructions -/

/-- The routine `ws` ends with DETACH, its instruction `k`, WAITIO, LDAL R1, LDWR R2, EXIT. -/
structure ResumeCode (ws : List Word) (k : Nat) : Prop where
  before : ∀ n < k,
    (codeAt ws n).any (fun w => !instrDetach w && !instrWaitio w && !instrExit w) = true
  detach : codeAt ws k = some 0x0300
  waitio : codeAt ws (k + 1) = some 0x4900
  ldal : codeAt ws (k + 2) = some 0x2201
  ldwr : codeAt ws (k + 3) = some 0x2502
  exit : codeAt ws (k + 4) = some 0x0000

theorem resume_start : ResumeCode (toWords ocdPrgmStart) 1 := by
  refine ⟨?_, rfl, rfl, rfl, rfl, rfl⟩
  decide

theorem resume_writeIo : ResumeCode (toWords ocdPrgmWriteIo) 1 := by
  refine ⟨?_, rfl, rfl, rfl, rfl, rfl⟩
  decide

theorem resume_cont : ResumeCode (toWords ocdPrgmCont) 22 := by
  refine ⟨?_, rfl, rfl, rfl, rfl, rfl⟩
  decide

section Steps

variable {σ : Arch} (i : OcdIn)

theorem step_detach (h : σ.instr = 0x0300) : σ.step i = Arch.next { σ with en := false } := by
  rw [Arch.step, h]
  rfl

theorem step_waitio (h : σ.instr = 0x4900) :
    σ.step i = if i.adsN || i.mio then σ else σ.caught.next := by
  rw [Arch.step, h]
  rfl

theorem step_ldal (h : σ.instr = 0x2201) : σ.step i =
    (σ.setReg 1 (i.a.setWidth 16 ||| (i.a >>> 16).setWidth 16)).next := by
  rw [Arch.step, h]
  rfl

theorem step_ldwr (h : σ.instr = 0x2502) :
    σ.step i = (σ.setReg 2 (Arch.level i.wr)).next := by
  rw [Arch.step, h]
  rfl

theorem step_exit (h : σ.instr = 0x0000) : σ.step i = σ.halt := by
  rw [Arch.step, h]
  rfl

theorem wait_waitio (h : σ.instr = 0x4900) : execWait σ.instr i = (i.adsN || i.mio) := by
  rw [h, execWait_readme]
  show (!(i.adsN == false && i.mio == false)) = _
  cases i.adsN <;> cases i.mio <;> rfl

/-- DETACH, LDAL and LDWR do not wait, EXIT always does. -/
theorem wait_others : execWait 0x0300 i = false ∧ execWait 0x2201 i = false ∧
    execWait 0x2502 i = false ∧ execWait 0x0000 i = true := by
  simp only [execWait_readme]
  exact ⟨rfl, rfl, rfl, rfl⟩

end Steps

/-! ## 3. The outputs before each instruction -/

/-- The outputs of the unit after `n` instructions, DETACH being instruction `k`. -/
structure Levels (k : Nat) (σ : Arch) (n : Nat) : Prop where
  le : n ≤ k + 4
  detached : n = k + 1 → σ.en = false
  attached : k + 2 ≤ n → σ.en = true ∧ σ.readyN = true
  stop : σ.stop = true → n = k + 4

section ResumeCode

variable {ws : List Word} {k : Nat}

/-- **The instruction after `n` others.** -/
inductive Next (k : Nat) (w : Word) (n : Nat) : Prop where
  | before (h : n < k) (hd : instrDetach w = false) (hw : instrWaitio w = false)
      (he : instrExit w = false)
  | detach (h : n = k) (hw : w = 0x0300)
  | waitio (h : n = k + 1) (hw : w = 0x4900)
  | ldal (h : n = k + 2) (hw : w = 0x2201)
  | ldwr (h : n = k + 3) (hw : w = 0x2502)
  | exit (h : n = k + 4) (hw : w = 0x0000)

theorem ResumeCode.at (hr : ResumeCode ws k) {σ : Arch} {n : Nat} (hf : Reaches ws σ n)
    (hn : n ≤ k + 4) : Next k σ.instr n := by
  rcases Nat.lt_or_ge n k with hlt | hge
  · have hb := hr.before n hlt
    obtain ⟨w, hw, hquiet⟩ : ∃ w, codeAt ws n = some w ∧
        (!instrDetach w && !instrWaitio w && !instrExit w) = true := by
      cases hc : codeAt ws n with
      | none => rw [hc] at hb; cases hb
      | some w => exact ⟨w, rfl, by rwa [hc] at hb⟩
    rw [← hf.instr hw] at hquiet
    simp only [Bool.and_eq_true, Bool.not_eq_true'] at hquiet
    obtain ⟨⟨hd, hi⟩, he⟩ := hquiet
    exact .before hlt hd hi he
  · obtain rfl | rfl | rfl | rfl | rfl :
        n = k ∨ n = k + 1 ∨ n = k + 2 ∨ n = k + 3 ∨ n = k + 4 := by omega
    · exact .detach rfl (hf.instr hr.detach)
    · exact .waitio rfl (hf.instr hr.waitio)
    · exact .ldal rfl (hf.instr hr.ldal)
    · exact .ldwr rfl (hf.instr hr.ldwr)
    · exact .exit rfl (hf.instr hr.exit)

/-- Only the EXIT at the end sets `stop`. -/
theorem Next.stop {σ : Arch} {n : Nat} (h : Next k σ.instr n) (hs : σ.stop = true → n = k + 4)
    (i : OcdIn) (hst : (σ.step i).stop = true) : n = k + 4 := by
  rw [σ.step_stop, Bool.or_eq_true, decide_eq_true_iff] at hst
  rcases hst with hst | hex
  · exact hs hst
  · cases h with
    | before _ _ _ he => simp [wires, hex] at he
    | exit h _ => exact h
    | _ _ hw =>
      rw [hw] at hex
      exact absurd hex (by decide)

/-- A clock of waiting keeps the outputs. -/
theorem Levels.wait {σ : Arch} {n : Nat} (h : Levels k σ n) (ha : Next k σ.instr n) {i : OcdIn}
    (hw : execWait σ.instr i = true) : Levels k (σ.step i) n := by
  obtain ⟨hd, hl, hr, -⟩ := wait_others i
  refine ⟨h.le, fun hn => ?_, fun hn => ?_, ha.stop h.stop i⟩
  · cases ha with
    | waitio _ hi =>
      rw [wait_waitio i hi] at hw
      rw [step_waitio i hi, if_pos hw]
      exact h.detached hn
    | _ => omega
  · cases ha with
    | ldal _ hi => rw [hi, hl] at hw; cases hw
    | ldwr _ hi => rw [hi, hr] at hw; cases hw
    | exit _ hi =>
      rw [step_exit i hi]
      exact h.attached hn
    | _ => omega

/-- **A completed instruction** takes the outputs to those of the next one. -/
theorem Levels.done {σ : Arch} {n : Nat} (h : Levels k σ n) (ha : Next k σ.instr n) {i : OcdIn}
    (hw : execWait σ.instr i = false) : Levels k (σ.step i) (n + 1) := by
  obtain ⟨-, -, -, he⟩ := wait_others i
  have hne : n ≠ k + 4 := by
    intro hn
    cases ha with
    | exit _ hi => rw [hi, he] at hw; cases hw
    | _ => omega
  have hle := h.le
  refine ⟨by omega, fun hn => ?_, fun hn => ?_, fun hs => ?_⟩
  · cases ha with
    | detach _ hi =>
      rw [step_detach i hi]
      rfl
    | _ => omega
  · cases ha with
    | waitio _ hi =>
      rw [wait_waitio i hi] at hw
      rw [step_waitio i hi, hw]
      exact ⟨rfl, rfl⟩
    | ldal _ hi =>
      rw [step_ldal i hi]
      exact h.attached (by omega)
    | ldwr _ hi =>
      rw [step_ldwr i hi]
      exact h.attached (by omega)
    | exit hn' => exact absurd hn' hne
    | _ => omega
  · exact absurd (ha.stop h.stop i hs) hne

/-- The unit before each instruction of such a routine. -/
structure Before (ws : List Word) (k : Nat) (σ : Arch) (n : Nat) : Prop where
  reaches : Reaches ws σ n
  levels : Levels k σ n

theorem Before.at {σ : Arch} {n : Nat} (hr : ResumeCode ws k) (h : Before ws k σ n) :
    Next k σ.instr n := hr.at h.reaches h.levels.le

theorem Before.wait {σ : Arch} {n : Nat} (hr : ResumeCode ws k) (h : Before ws k σ n) {i : OcdIn}
    (hw : execWait σ.instr i = true) : Before ws k (σ.step i) n :=
  ⟨h.reaches.wait hw, h.levels.wait (h.at hr) hw⟩

theorem ResumeCode.symSteps (hr : ResumeCode ws k) {n : Nat} (hn : n ≤ k + 4) :
    ∃ t, symSteps ws n .start = some t := by
  obtain ⟨c, hc⟩ := Nat.exists_eq_add_of_le hn
  have hlast := hr.exit
  rw [hc, codeAt, Option.bind_eq_some_iff] at hlast
  obtain ⟨t, ht, -⟩ := hlast
  obtain ⟨u, hu, -⟩ := symSteps_prefix ht
  exact ⟨u, hu⟩

theorem Before.done {σ : Arch} {n : Nat} (hr : ResumeCode ws k) (h : Before ws k σ n) {i : OcdIn}
    (hw : execWait σ.instr i = false) : Before ws k (σ.step i) (n + 1) := by
  have hl := h.levels.done (h.at hr) hw
  obtain ⟨t, ht⟩ := hr.symSteps hl.le
  exact ⟨h.reaches.done hw ht, hl⟩

/-- **Every clock of a run** of such a routine. -/
def ResumeRun (ws : List Word) (k : Nat) (y : OcdSys) (inp : Nat → OcdIn) : Prop :=
  ∀ u, ∃ σ, InPhase (y.run inp u) σ ∧ Before ws k σ (y.index inp u)

theorem resume_runs {prog : List Byte} (hp : prog.length ≤ 512)
    (hr : ResumeCode (toWords prog) k) (x : OcdSys) (inp : Nat → OcdIn) :
    ResumeRun (toWords prog) k (load prog x) inp := by
  obtain ⟨hpc, hs⟩ := ocdRun_boot (ocdRun_prog_le hp) x.arch
  have h0 : Before (toWords prog) k (ocdRun prog x.arch) 0 := by
    refine ⟨.start (loaded_ocdRun hp x.arch) hpc,
      ⟨Nat.zero_le _, fun hn => ?_, fun hn => ?_, fun h => ?_⟩⟩
    · omega
    · omega
    · rw [hs] at h
      cases h
  exact index_induct (load_inPhase (ocdRun_prog_le hp) x) h0
    (fun _ _ _ h hw => h.wait hr hw) (fun _ _ _ h hw => h.done hr hw) inp

end ResumeCode

/-! ## 4. The run on the pins -/

section Run

variable {ws : List Word} {k : Nat} {y : OcdSys} {inp : Nat → OcdIn}

theorem ResumeRun.exec (h : ResumeRun ws k y inp) {u : Nat} (hs : (y.run inp u).ocd.state = .exec) :
    AtExec (y.run inp u) ∧ Before ws k (y.run inp u).arch (y.index inp u) := by
  obtain ⟨σ, hph, hσ⟩ := h u
  obtain ⟨hx, rfl⟩ := hph.atExec hs
  exact ⟨hx, hσ⟩

theorem ResumeRun.shown (h : ResumeRun ws k y inp) {u : Nat}
    (hs : (y.run inp u).ocd.state ≠ .store) : Before ws k (y.run inp u).arch (y.index inp u) := by
  obtain ⟨σ, hph, hσ⟩ := h u
  rw [hph.arch hs]
  exact hσ

theorem completes_iff {u : Nat} : (y.run inp u).completes (inp u) = true ↔
    (y.run inp u).ocd.state = .exec ∧ execWait (y.run inp u).ocd.instr (inp u) = false := by
  simp [OcdSys.completes, inExec]

/-- DETACH is instruction `k`. -/
theorem detachAt_iff (hr : ResumeCode ws k) (h : ResumeRun ws k y inp) {e : Nat} :
    DetachAt y inp e ↔ y.index inp e = k ∧ (y.run inp e).completes (inp e) = true := by
  rw [completes_iff]
  constructor
  · intro hd
    obtain ⟨hs, hi⟩ := hd
    obtain ⟨hx, hst⟩ := h.exec hs
    rw [hx.instr] at hi ⊢
    cases hst.at hr with
    | before _ hd => rw [hd] at hi; cases hi
    | detach hn hw =>
      rw [hw]
      exact ⟨hn, hs, (wait_others (inp e)).1⟩
    | _ _ hw =>
      rw [hw] at hi
      exact absurd hi (by decide)
  · intro hc
    obtain ⟨hn, hs, -⟩ := hc
    obtain ⟨hx, hst⟩ := h.exec hs
    have hw : (y.run inp e).arch.instr = 0x0300 := hst.reaches.instr (by rw [hn]; exact hr.detach)
    exact ⟨hs, by rw [hx.instr, hw]; decide⟩

/-- **An access is caught exactly where WAITIO, instruction `k + 1`, completes.** -/
theorem trapAt_iff (hr : ResumeCode ws k) (h : ResumeRun ws k y inp) {t : Nat} :
    TrapAt y inp t ↔ y.index inp t = k + 1 ∧ (y.run inp t).completes (inp t) = true := by
  rw [completes_iff]
  constructor
  · intro ht
    obtain ⟨hs, hi, hads, hmio⟩ := ht
    obtain ⟨hx, hst⟩ := h.exec hs
    rw [hx.instr] at hi ⊢
    cases hst.at hr with
    | before _ _ hw => rw [hw] at hi; cases hi
    | waitio hn hw =>
      refine ⟨hn, hs, ?_⟩
      rw [wait_waitio (inp t) hw, hads, hmio]
      rfl
    | _ _ hw =>
      rw [hw] at hi
      exact absurd hi (by decide)
  · intro hc
    obtain ⟨hn, hs, hgo⟩ := hc
    obtain ⟨hx, hst⟩ := h.exec hs
    have hw : (y.run inp t).arch.instr = 0x4900 := hst.reaches.instr (by rw [hn]; exact hr.waitio)
    rw [hx.instr, wait_waitio (inp t) hw, Bool.or_eq_false_iff] at hgo
    exact ⟨hs, by rw [hx.instr, hw]; decide, hgo⟩

/-- One clock of the outputs in EXEC. -/
theorem exec_levels (hr : ResumeCode ws k) (h : ResumeRun ws k y inp) {u : Nat}
    (hs : (y.run inp u).ocd.state = .exec) :
    (y.index inp u = k → (y.run inp (u + 1)).ocd.en = false) ∧
    (k + 1 ≤ y.index inp u → (y.run inp (u + 1)).ocd.en = (y.run inp u).ocd.en ∧
      (y.run inp (u + 1)).ocd.readyN = (y.run inp u).ocd.readyN) := by
  obtain ⟨hx, hst⟩ := h.exec hs
  have hocd : (y.run inp (u + 1)).ocd = doExec (y.run inp u).ocd (inp u)
      (y.run inp u).arch.operand := atExec_ocd hx (inp u)
  rw [hocd]
  simp only [doExec, hx.instr]
  constructor
  · intro hn
    have hw : (y.run inp u).arch.instr = 0x0300 := hst.reaches.instr (by rw [hn]; exact hr.detach)
    rw [hw]
    rfl
  · intro hn
    cases hst.at hr with
    | before => omega
    | detach => omega
    | _ _ hw =>
      rw [hw]
      exact ⟨rfl, rfl⟩

/-- STORE comes after an EXEC clock. -/
theorem shown_or_exec (y : OcdSys) (inp : Nat → OcdIn) (u : Nat) :
    (y.run inp (u + 1)).ocd.state ≠ .store ∧ y.index inp (u + 1) = y.index inp u ∨
    (y.run inp u).ocd.state = .exec ∧ (y.run inp u).completes (inp u) = true := by
  cases hc : (y.run inp u).completes (inp u) with
  | false => exact Or.inl ⟨fun hs => by simp [(run_store u).mp hs] at hc, index_wait hc⟩
  | true => exact Or.inr ⟨(completes_iff.mp hc).1, rfl⟩

/-- **From two clocks after the access on** the unit is attached and holds READY#. -/
theorem attached_from (hr : ResumeCode ws k) (h : ResumeRun ws k y inp) {t u : Nat}
    (ht : TrapAt y inp t) (hu : t + 2 ≤ u) :
    (y.run inp u).ocd.en = true ∧ (y.run inp u).ocd.readyN = true := by
  obtain ⟨hn, hc⟩ := (trapAt_iff hr h).mp ht
  have hcount : ∀ v > t, k + 2 ≤ y.index inp v := by
    intro v hv
    have hlt := index_lt hc hv
    omega
  induction u, hu using Nat.le_induction with
  | base =>
    have h2 : (y.run inp (t + 2)).ocd.state = .storeFetch := by
      rw [run_state, (run_store t).mpr hc]
    exact (h.shown (by rw [h2]; decide)).levels.attached (hcount _ (by omega))
  | succ u hu ih =>
    rcases shown_or_exec y inp u with ⟨hs, -⟩ | ⟨hs, -⟩
    · exact (h.shown hs).levels.attached (hcount _ (by omega))
    · obtain ⟨he, hry⟩ := (exec_levels hr h hs).2 (by have := hcount u (by omega); omega)
      rw [he, hry]
      exact ih

/-- **After DETACH** the unit is attached again exactly from two clocks after the access on. -/
theorem en_iff (hr : ResumeCode ws k) (h : ResumeRun ws k y inp) {e u : Nat} (hd : DetachAt y inp e)
    (hu : e < u) :
    (y.run inp u).ocd.en = true ↔ ∃ t, TrapAt y inp t ∧ t + 2 ≤ u := by
  obtain ⟨hn, hc⟩ := (detachAt_iff hr h).mp hd
  constructor
  · intro hen
    obtain ⟨v, rfl⟩ := Nat.exists_eq_add_of_lt hu
    -- what shows in this clock was decided in the one before
    have hcaught : k + 1 < y.index inp (e + v) := by
      by_contra hle
      rcases shown_or_exec y inp (e + v) with ⟨hs, hi⟩ | ⟨hs, -⟩
      · have hst := h.shown hs
        rw [hi] at hst
        have hlt := index_lt hc (Nat.lt_succ_of_le (Nat.le_add_right e v))
        rw [hi] at hlt
        have hoff := hst.levels.detached (by omega)
        exact absurd (hoff.symm.trans hen) (by decide)
      · obtain ⟨hoff, hkeep⟩ := exec_levels hr h hs
        have hge := index_mono y inp (Nat.le_add_right e v)
        obtain hk | hk : y.index inp (e + v) = k ∨ y.index inp (e + v) = k + 1 := by omega
        · exact absurd ((hoff hk).symm.trans hen) (by decide)
        · have hoff' := (h.exec hs).2.levels.detached hk
          rw [(hkeep (by omega)).1] at hen
          exact absurd (hoff'.symm.trans hen) (by decide)
    obtain ⟨t, ht, hi, hct⟩ := index_reach hcaught
    exact ⟨t, (trapAt_iff hr h).mpr ⟨hi, hct⟩, by omega⟩
  · intro htrap
    obtain ⟨t, ht, htu⟩ := htrap
    exact (attached_from hr h ht htu).1

/-- Nothing but `rst` clears `stop`. -/
theorem stop_mono {T T' : Nat} (hT : T ≤ T') (hs : (y.run inp T).ocd.stop = true) :
    (y.run inp T').ocd.stop = true := by
  induction T', hT using Nat.le_induction with
  | base => exact hs
  | succ u _ ih =>
    show ((y.run inp u).ocd.tick _ _).stop = true
    unfold Ocd.tick
    cases (y.run inp u).ocd.state <;>
      simp [doFetch, doLoad, doExec, doStore, doStoreFetch, ih]

/-- **The unit stops only after an access.** -/
theorem stop_trap (hr : ResumeCode ws k) (h : ResumeRun ws k y inp) {T : Nat}
    (hs : (y.run inp T).ocd.stop = true) : ∃ t < T, TrapAt y inp t := by
  obtain ⟨σ, hph, hσ⟩ := h T
  rw [hph.stop] at hs
  have hn := hσ.levels.stop hs
  obtain ⟨t, ht, hi, hc⟩ := index_reach (show k + 1 < y.index inp T by omega)
  exact ⟨t, ht, (trapAt_iff hr h).mpr ⟨hi, hc⟩⟩

/-- **The end of the routine**: LDAL in clock `t + 5`, LDWR in `t + 10`, EXIT in `t + 15`. -/
theorem trap_ends (hr : ResumeCode ws k) (h : ResumeRun ws k y inp) {t : Nat}
    (ht : TrapAt y inp t) : AtExec (y.run inp (t + 15)) ∧ (y.run inp (t + 15)).arch.instr = 0x0000 ∧
      (y.run inp (t + 15)).arch.stop = false ∧
      (y.run inp (t + 15)).arch.reg 1 =
        ((inp (t + 5)).a.setWidth 16 ||| ((inp (t + 5)).a >>> 16).setWidth 16) ∧
      (y.run inp (t + 15)).arch.reg 2 = Arch.level (inp (t + 10)).wr := by
  obtain ⟨hn, hc⟩ := (trapAt_iff hr h).mp ht
  obtain ⟨hs3, hn3⟩ := run_refetch hc
  have hst3 := h.shown (u := t + 3) (by rw [hs3]; decide)
  rw [hn3, hn] at hst3
  obtain ⟨σ, hph, -⟩ := h (t + 3)
  have hf3 := (hph.atFetch hs3).1
  have hldal := hst3.reaches.instr hr.ldal
  have hgo3 : execWait (y.run inp (t + 3)).arch.instr (inp (t + 5)) = false := by
    rw [hldal]
    exact (wait_others _).2.1
  obtain ⟨hf8, ha8⟩ : AtFetch (y.run inp (t + 8)) ∧ (y.run inp (t + 8)).arch =
      (y.run inp (t + 3)).arch.step (inp (t + 5)) := run_next hf3 hgo3
  have hst8 := hst3.done hr hgo3
  rw [← ha8] at hst8
  have hldwr := hst8.reaches.instr hr.ldwr
  have hgo8 : execWait (y.run inp (t + 8)).arch.instr (inp (t + 10)) = false := by
    rw [hldwr]
    exact (wait_others _).2.2.1
  obtain ⟨hf13, ha13⟩ : AtFetch (y.run inp (t + 13)) ∧ (y.run inp (t + 13)).arch =
      (y.run inp (t + 8)).arch.step (inp (t + 10)) := run_next hf8 hgo8
  have hst13 := hst8.done hr hgo8
  rw [← ha13] at hst13
  obtain ⟨hx15, ha15⟩ : AtExec (y.run inp (t + 15)) ∧ (y.run inp (t + 15)).arch =
      (y.run inp (t + 13)).arch := run_fetched hf13
  have hexit := hst13.reaches.instr hr.exit
  refine ⟨hx15, (congrArg Arch.instr ha15).trans hexit, ?_, ?_, ?_⟩
  all_goals rw [ha15, ha13, step_ldwr _ hldwr, ha8, step_ldal _ hldal]
  · show (y.run inp (t + 3)).arch.stop = false
    cases hs : (y.run inp (t + 3)).arch.stop with
    | false => rfl
    | true =>
      have := hst3.levels.stop hs
      omega
  · rw [Arch.next_reg, Arch.setReg_reg_ne _ (by decide), Arch.next_reg, Arch.setReg_reg_self]
  · rw [Arch.next_reg, Arch.setReg_reg_self]

/-- Sixteen clocks after the access the unit is in EXIT. -/
theorem trap_exit (hr : ResumeCode ws k) (h : ResumeRun ws k y inp) {t T : Nat}
    (ht : TrapAt y inp t) (hT : t + 16 ≤ T) :
    (y.run inp T).arch = (y.run inp (t + 15)).arch.halt := by
  obtain ⟨hx, hi, -⟩ := trap_ends hr h ht
  obtain ⟨c, rfl⟩ := Nat.exists_eq_add_of_le hT
  have hm : mnem (y.run inp (t + 15)).arch.instr = some .exit := by
    rw [hi]
    decide
  rw [show t + 16 + c = t + 15 + (c + 1) by omega, OcdSys.run_add]
  exact (hx.exit hm (fun n => inp (t + 15 + n)) c).2

theorem trap_stops (hr : ResumeCode ws k) (h : ResumeRun ws k y inp) {t : Nat} (ht : TrapAt y inp t)
    (T : Nat) : (y.run inp T).ocd.stop = true ↔ t + 16 ≤ T := by
  constructor
  · intro hs
    by_contra hlt
    have hlate := stop_mono (show T ≤ t + 15 by omega) hs
    exact absurd ((trap_ends hr h ht).2.2.1.symm.trans hlate) (by decide)
  · intro hT
    exact congrArg Arch.stop (trap_exit hr h ht hT)

theorem trap_unique (hr : ResumeCode ws k) (h : ResumeRun ws k y inp) {t t' : Nat}
    (ht : TrapAt y inp t) (ht' : TrapAt y inp t') : t = t' := by
  obtain ⟨hn, hc⟩ := (trapAt_iff hr h).mp ht
  obtain ⟨hn', hc'⟩ := (trapAt_iff hr h).mp ht'
  exact index_inj hc hc' (hn.trans hn'.symm)

/-- **WAITIO watches from its first EXEC on**, five clocks after DETACH, until the access. -/
theorem waitio_watches (hr : ResumeCode ws k) (h : ResumeRun ws k y inp) {e : Nat}
    (hd : DetachAt y inp e) {u : Nat} (hu : e + 5 ≤ u)
    (hno : ∀ v, e + 5 ≤ v → v < u → ¬ Begins (inp v)) :
    (y.run inp u).ocd.state = .exec ∧ instrWaitio (y.run inp u).ocd.instr = true := by
  obtain ⟨hn, hc⟩ := (detachAt_iff hr h).mp hd
  obtain ⟨hs3, hn3⟩ := run_refetch hc
  have hst3 := h.shown (u := e + 3) (by rw [hs3]; decide)
  rw [hn3, hn] at hst3
  have hwaitio := hst3.reaches.instr hr.waitio
  obtain ⟨σ, hph, -⟩ := h (e + 3)
  have hf3 := (hph.atFetch hs3).1
  obtain ⟨c, rfl⟩ := Nat.exists_eq_add_of_le hu
  obtain ⟨hx, hsame, -⟩ := run_wait hf3 (fun n => inp (e + 3 + n)) c fun j hj => by
    rw [← execWait_readme, wait_waitio _ hwaitio]
    have hj' := hno (e + 5 + j) (by omega) (by omega)
    rw [show e + 3 + (2 + j) = e + 5 + j by omega]
    cases ha : (inp (e + 5 + j)).adsN with
    | true => rfl
    | false =>
      cases hm : (inp (e + 5 + j)).mio with
      | true => rfl
      | false => exact absurd ⟨ha, hm⟩ hj'
  rw [← OcdSys.run_add, show e + 3 + (2 + c) = e + 5 + c by omega] at hx hsame
  refine ⟨hx.state, ?_⟩
  rw [hx.instr, hsame.instr, hwaitio]
  decide

/-- **The access that is caught is the first** that begins once WAITIO is in EXEC. -/
theorem trap_first (hr : ResumeCode ws k) (h : ResumeRun ws k y inp) {e t : Nat}
    (hd : DetachAt y inp e) : TrapAt y inp t ↔
      e + 5 ≤ t ∧ Begins (inp t) ∧ ∀ v, e + 5 ≤ v → v < t → ¬ Begins (inp v) := by
  have hcatch : ∀ {v}, e + 5 ≤ v → Begins (inp v) →
      (∀ w, e + 5 ≤ w → w < v → ¬ Begins (inp w)) → TrapAt y inp v := by
    intro v hv hb hno
    obtain ⟨hs, hi⟩ := waitio_watches hr h hd hv hno
    exact ⟨hs, hi, hb⟩
  constructor
  · intro ht
    have hs := ht.1
    have hlate : e + 5 ≤ t := by
      obtain ⟨hn, hc⟩ := (detachAt_iff hr h).mp hd
      obtain ⟨hn', hc'⟩ := (trapAt_iff hr h).mp ht
      have hlt : e < t := by
        by_contra hle
        have := index_mono y inp (Nat.le_of_not_lt hle)
        omega
      have h1 := (run_store e).mpr hc
      have h3 := (run_refetch hc).1
      by_contra hlt5
      obtain rfl | rfl | rfl | rfl : t = e + 1 ∨ t = e + 2 ∨ t = e + 3 ∨ t = e + 4 := by omega
      · rw [h1] at hs; cases hs
      · rw [run_state, h1] at hs; cases hs
      · rw [h3] at hs; cases hs
      · rw [run_state, h3] at hs; cases hs
    refine ⟨hlate, ht.2.2, fun v hv hvt hb => ?_⟩
    -- the first access before it would have been caught, too
    have hex : ∃ v, e + 5 ≤ v ∧ Begins (inp v) := ⟨v, hv, hb⟩
    classical
    obtain ⟨hge, hbegin⟩ := Nat.find_spec hex
    have htrap := hcatch hge hbegin fun w hw hwv hbw => Nat.find_min hex hwv ⟨hw, hbw⟩
    have hle := Nat.find_min' hex ⟨hv, hb⟩
    have := trap_unique hr h ht htrap
    omega
  · intro hf
    obtain ⟨ht, hb, hno⟩ := hf
    exact hcatch ht hb hno

end Run

/-! ## 5. The access on the pins -/

/-- What the CPU holds is on the pins as long as the unit keeps READY# from it. -/
theorem CpuHolds.shows {ready : Nat → Bool} {inp : Nat → OcdIn} {t : Nat} {a : Access}
    (h : CpuHolds ready inp t a) {o : Nat → Ocd} {bc : Nat → Bool} {n : Nat}
    (hready : ReadyOf o bc ready n)
    (hon : ∀ v, t + 2 ≤ v → v < n → (o v).en = true ∧ (o v).readyN = true) {u : Nat} (ht : t ≤ u)
    (hu : u ≤ n) : Shows (inp u) a := by
  refine h u ht fun v hv hvu => ?_
  obtain ⟨hen, hr⟩ := hon v hv (by omega)
  rw [hready v (by omega), readyPin, hen, if_pos rfl, hr]

/-- The registers sv_iobreak reads. -/
theorem trap_regs {ws : List Word} {k : Nat} {y : OcdSys} {inp : Nat → OcdIn}
    (hr : ResumeCode ws k) (h : ResumeRun ws k y inp) {t T : Nat} (ht : TrapAt y inp t)
    (hT : t + 16 ≤ T) {ready bc : Nat → Bool} {a : Access}
    (hready : ReadyOf (fun u => (y.run inp u).ocd) bc ready T) (ha : CpuHolds ready inp t a) :
    ocdGetReg 1 (y.run inp T).arch = a.port ∧
      ocdGetReg 2 (y.run inp T).arch = Arch.level a.wr := by
  have hshow : ∀ u, t ≤ u → u ≤ T → Shows (inp u) a := fun u =>
    ha.shows hready fun v hv _ => attached_from hr h ht hv
  obtain ⟨-, -, -, h1, h2⟩ := trap_ends hr h ht
  rw [trap_exit hr h ht hT]
  constructor
  · refine h1.trans ?_
    rw [(hshow (t + 5) (by omega) (by omega)).addr]
    exact port_low a.port
  · refine h2.trans ?_
    rw [(hshow (t + 10) (by omega) (by omega)).wr]

/-- ocd_prgm_read_io comes to its first EXEC in clock 4; until then the unit shows what
    `ocd_run` has left. -/
theorem readIo_phase (z : OcdSys) (inp : Nat → OcdIn) :
    AtExec ((load ocdPrgmReadIo z).run inp 4) ∧ (load ocdPrgmReadIo z).index inp 4 = 0 ∧
      ∀ n, 1 ≤ n → n ≤ 4 →
        ((load ocdPrgmReadIo z).run inp n).arch = ocdRun ocdPrgmReadIo z.arch := by
  have hp : ocdPrgmReadIo.length ≤ ocdMemSize := by decide
  have h0 : ((load ocdPrgmReadIo z).run inp 0).ocd.state = .store := rfl
  obtain ⟨h1, a1⟩ := load_clk hp z inp
  obtain ⟨h2, a2⟩ := load_run hp z inp
  have h3 : AtLoad ((load ocdPrgmReadIo z).run inp 3) := (atFetch_clk h2 (inp 2)).1
  obtain ⟨h4, a4⟩ := run_fetched h2
  refine ⟨h4, ?_, fun n hn hn' => ?_⟩
  · have hidle : ∀ n < 4, ((load ocdPrgmReadIo z).run inp n).ocd.state ≠ .exec := by
      intro n hn
      obtain rfl | rfl | rfl | rfl : n = 0 ∨ n = 1 ∨ n = 2 ∨ n = 3 := by omega
      · rw [h0]; decide
      · rw [h1.state]; decide
      · rw [h2.state]; decide
      · rw [h3.state]; decide
    rw [index_wait (not_completes (hidle 3 (by decide))),
      index_wait (not_completes (hidle 2 (by decide))),
      index_wait (not_completes (hidle 1 (by decide))),
      index_wait (not_completes (hidle 0 (by decide)))]
    rfl
  · obtain rfl | rfl | rfl | rfl : n = 1 ∨ n = 2 ∨ n = 3 ∨ n = 4 := by omega
    · exact a1
    · exact a2
    · exact (atFetch_clk h2 (inp 2)).2.trans a2
    · exact a4.trans a2

/-- Up to then it leaves READY# as it was. -/
theorem readIo_levels (z : OcdSys) (inp : Nat → OcdIn) {n : Nat} (hn : n ≤ 4) :
    ((load ocdPrgmReadIo z).run inp n).ocd.en = z.ocd.en ∧
      ((load ocdPrgmReadIo z).run inp n).ocd.readyN = z.ocd.readyN := by
  cases n with
  | zero => exact ⟨rfl, rfl⟩
  | succ n =>
    have harch := (readIo_phase z inp).2.2 (n + 1) (Nat.succ_pos n) hn
    exact ⟨congrArg Arch.en harch, congrArg Arch.readyN harch⟩

/-- LDD reads the bus in clock 4. -/
theorem readIo_bus {z : OcdSys} {inp bus : Nat → OcdIn}
    (h : OnBus (load ocdPrgmReadIo z) inp bus) : bus 0 = inp 4 := by
  obtain ⟨hx, hindex, harch⟩ := readIo_phase z inp
  have hinstr : ((load ocdPrgmReadIo z).run inp 4).arch.instr = 0x2403 := by
    rw [harch 4 (by decide) (by decide)]
    exact loaded_ocdRun (by decide) z.arch 0 0x2403 (by decide)
  have hgo : execWait ((load ocdPrgmReadIo z).run inp 4).ocd.instr (inp 4) = false := by
    rw [hx.instr, hinstr, execWait_readme]
    rfl
  rw [← h 4 (completes_iff.mpr ⟨hx.state, hgo⟩), hindex]

/-- **READY# is kept from the CPU** until ocd_prgm_read_io has read the bus. -/
theorem readIoUnit_attached {ws : List Word} {k : Nat} {y : OcdSys} {inp : Nat → OcdIn}
    (hr : ResumeCode ws k) (h : ResumeRun ws k y inp) {t T T' : Nat} (ht : TrapAt y inp t)
    (hT : t + 2 ≤ T) {v : Nat} (hv : t + 2 ≤ v) (hv' : v < T' + 5) :
    (readIoUnit y inp T T' v).en = true ∧ (readIoUnit y inp T T' v).readyN = true := by
  obtain ⟨hen, hry⟩ := attached_from hr h ht hT
  unfold readIoUnit
  split
  · exact attached_from hr h ht hv
  · split
    · exact ⟨hen, hry⟩
    · obtain ⟨he, hr'⟩ := readIo_levels (y.run inp T) (fun n => inp (T' + n))
        (show v - T' ≤ 4 by omega)
      exact ⟨he.trans hen, hr'.trans hry⟩

/-! ## 6. sv_iobreak -/

/-- What sv_iobreak leaves of the access `a`: the port in any case, the rest where none of the
    devices `ds` finishes the access. -/
structure Notes (ds : List Dev) (m' : Machine) (a : Access) : Prop where
  ioaddr : m'.sv.ioaddr = a.port
  status : findDev ds a.port = none → m'.sv.status = if a.wr then .iowr else .iord
  iodata : findDev ds a.port = none → a.wr = true → m'.sv.iodata = a.data

theorem svCont_ioaddr (m : Machine) : (svCont m).2.sv.ioaddr = m.sv.ioaddr := by
  rw [svCont]
  split <;> rfl

theorem devWrite_none {ds : List Dev} {ioaddr iodata : Word} (h : findDev ds ioaddr = none) :
    devWrite ds ioaddr iodata = none := by
  induction ds with
  | nil => rfl
  | cons d ds ih =>
    rw [findDev, List.find?_cons] at h
    cases hc : d.covers ioaddr with
    | true => simp [hc] at h
    | false =>
      rw [hc] at h
      rw [devWrite, if_neg (by simp [hc]), ih h]
      rfl

/-- A trapped OUT. -/
theorem svIowr_notes {m : Machine} {a : Access} (hwr : a.wr = true)
    (hport : m.sv.ioaddr = a.port) (hdata : ocdGetReg 3 m.ocd = a.data) :
    Notes m.sv.dev (svIowr m).2 a := by
  cases hd : devWrite m.sv.dev m.sv.ioaddr (ocdGetReg 3 m.ocd) with
  | none =>
    rw [svIowr_none hd]
    exact ⟨hport, fun _ => by rw [hwr]; rfl, fun _ _ => hdata⟩
  | some ds =>
    have hdev : findDev m.sv.dev a.port ≠ none := by
      intro hn
      rw [← hport] at hn
      rw [devWrite_none hn] at hd
      cases hd
    rw [svIowr_some hd]
    exact ⟨(svCont_ioaddr _).trans hport, fun hn => absurd hn hdev, fun hn => absurd hn hdev⟩

/-- A trapped IN. -/
theorem svIord_notes {m : Machine} {a : Access} (hrd : a.wr = false)
    (hport : m.sv.ioaddr = a.port) : Notes m.sv.dev (svIord m).2 a := by
  cases hd : devRead m.sv.dev m.sv.ioaddr with
  | none =>
    rw [svIord_none hd]
    exact ⟨hport, fun _ => by rw [hrd]; rfl, fun _ hwr => by rw [hrd] at hwr; cases hwr⟩
  | some v =>
    have hdev : findDev m.sv.dev a.port ≠ none := by
      intro hn
      rw [devRead, hport, hn] at hd
      cases hd
    rw [svIord_some hd]
    exact ⟨(svCont_ioaddr _).trans hport, fun hn => absurd hn hdev, fun hn => absurd hn hdev⟩

/-- **sv_iobreak of a running CPU** notes the access whose port is in R1 and whose direction is
    in R2; the data of an OUT are on the bus. -/
theorem svIobreak_notes {m : Machine} {a : Access} (hs : m.sv.status = .running)
    (hport : ocdGetReg 1 m.ocd = a.port) (hwr : ocdGetReg 2 m.ocd = Arch.level a.wr)
    (hdata : a.wr = true → (m.bus 0).din = a.data) :
    ∃ r m', svIobreak m = some (r, m') ∧ Notes m.sv.dev m' a := by
  cases ha : a.wr with
  | true =>
    have hne : ocdGetReg 2 m.ocd ≠ 0 := by
      rw [hwr, ha]
      decide
    obtain ⟨τ, h3, -, heq⟩ := svIobreak_out m hs hne
    have hn : Notes m.sv.dev (svIowr (m.trapped.waited ocdPrgmReadIo τ)).2 a :=
      svIowr_notes (m := m.trapped.waited ocdPrgmReadIo τ) ha hport (h3.trans (hdata ha))
    exact ⟨_, _, heq, hn⟩
  | false =>
    have hz : ocdGetReg 2 m.ocd = 0 := by
      rw [hwr, ha]
      decide
    have hn : Notes m.sv.dev (svIord m.trapped).2 a :=
      svIord_notes (m := m.trapped) ha hport
    exact ⟨_, _, svIobreak_in m hs hz, hn⟩

/-! ## 7. The result -/

/-- What the routine `prog` does from any state `x` of the unit and its memory, on the trace
    `inp`. -/
structure Reports (prog : List Byte) (x : OcdSys) (inp : Nat → OcdIn) : Prop where
  /-- The access caught is the first that begins once WAITIO, after DETACH, is in EXEC. -/
  detached : ∀ {t}, TrapAt (load prog x) inp t → ∃ e, DetachAt (load prog x) inp e
  first : ∀ {e t}, DetachAt (load prog x) inp e → (TrapAt (load prog x) inp t ↔
    e + 5 ≤ t ∧ Begins (inp t) ∧ ∀ v, e + 5 ≤ v → v < t → ¬ Begins (inp v))
  /-- `stop` is set only after it, and sixteen clocks after it. -/
  only : ∀ {T}, ((load prog x).run inp T).ocd.stop = true →
    ∃ t < T, TrapAt (load prog x) inp t
  stops : ∀ {t}, TrapAt (load prog x) inp t → ∀ T,
    ((load prog x).run inp T).ocd.stop = true ↔ t + 16 ≤ T
  /-- From DETACH on `en` is 0, until the STORE of the WAITIO that has caught it. -/
  en : ∀ {e u}, DetachAt (load prog x) inp e → e < u →
    (((load prog x).run inp u).ocd.en = true ↔ ∃ t, TrapAt (load prog x) inp t ∧ t + 2 ≤ u)
  /-- The port is in R1 and the level of W/R# in R2. -/
  regs : ∀ {t T ready bc a}, TrapAt (load prog x) inp t → t + 16 ≤ T →
    ReadyOf (fun u => ((load prog x).run inp u).ocd) bc ready T → CpuHolds ready inp t a →
    ocdGetReg 1 ((load prog x).run inp T).arch = a.port ∧
      ocdGetReg 2 ((load prog x).run inp T).arch = Arch.level a.wr
  /-- sv_iobreak, called in clock `T`, notes the access; for an OUT the unit runs
      ocd_prgm_read_io from clock `T'` on. -/
  iobreak : ∀ {t T T' ready bc a}, TrapAt (load prog x) inp t → t + 16 ≤ T →
    ReadyOf (readIoUnit (load prog x) inp T T') bc ready (if a.wr then T' + 5 else T) →
    CpuHolds ready inp t a → T ≤ T' → ∀ {m : Machine}, m.sv.status = .running →
    m.ocd = ((load prog x).run inp T).arch →
    (a.wr = true → OnBus (load ocdPrgmReadIo ((load prog x).run inp T))
      (fun n => inp (T' + n)) m.bus) →
    ∃ r m', svIobreak m = some (r, m') ∧ Notes m.sv.dev m' a

/-- **The resume routines stop at the first I/O access and report it.** -/
theorem resume_reports {prog : List Byte}
    (hprog : prog ∈ [ocdPrgmStart, ocdPrgmWriteIo, ocdPrgmCont]) (x : OcdSys)
    (inp : Nat → OcdIn) : Reports prog x inp := by
  obtain ⟨k, hr, hp⟩ : ∃ k, ResumeCode (toWords prog) k ∧ prog.length ≤ 512 := by
    simp only [List.mem_cons, List.not_mem_nil, or_false] at hprog
    rcases hprog with rfl | rfl | rfl
    · exact ⟨1, resume_start, by decide⟩
    · exact ⟨1, resume_writeIo, by decide⟩
    · exact ⟨22, resume_cont, by decide⟩
  have h := resume_runs hp hr x inp
  have hregs : ∀ {t T ready bc a}, TrapAt (load prog x) inp t → t + 16 ≤ T →
      ReadyOf (fun u => ((load prog x).run inp u).ocd) bc ready T → CpuHolds ready inp t a →
      ocdGetReg 1 ((load prog x).run inp T).arch = a.port ∧
        ocdGetReg 2 ((load prog x).run inp T).arch = Arch.level a.wr :=
    fun ht hT hready ha => trap_regs hr h ht hT hready ha
  refine ⟨fun ht => ?_, fun hd => trap_first hr h hd, fun hs => stop_trap hr h hs,
    fun ht => trap_stops hr h ht, fun hd hu => en_iff hr h hd hu, hregs, ?_⟩
  · obtain ⟨hn, -⟩ := (trapAt_iff hr h).mp ht
    obtain ⟨e, -, he, hc⟩ := index_reach (show k < (load prog x).index inp _ by rw [hn]; omega)
    exact ⟨e, (detachAt_iff hr h).mpr ⟨he, hc⟩⟩
  · intro t T T' ready bc a ht hT hready ha hTT' m hs hm hbus
    -- before clock `T` the unit is the one of the routine
    have hbefore : ReadyOf (fun u => ((load prog x).run inp u).ocd) bc ready T := by
      intro u hu
      have hbound : u < if a.wr then T' + 5 else T := by
        split <;> omega
      rw [hready u hbound, readIoUnit, if_pos hu]
    obtain ⟨h1, h2⟩ := hregs ht hT hbefore ha
    rw [← hm] at h1 h2
    refine svIobreak_notes hs h1 h2 fun hwr => ?_
    rw [readIo_bus (hbus hwr)]
    rw [hwr, if_pos rfl] at hready
    have hshow : Shows (inp (T' + 4)) a := ha.shows hready
      (fun v hv hv' => readIoUnit_attached hr h ht (by omega) hv hv') (by omega) (by omega)
    exact hshow.data hwr

/-- The trace of a CPU that writes 0x41 to the port 0x3F8 and is held in it. -/
def outPins : OcdIn :=
  { adsN := false, lockN := true, a := 0x3F8, din := 0x41, hlda := false, wr := true, dc := true,
    mio := false }

/-- On it ocd_prgm_start catches the access in clock 14 and stops in clock 30. -/
theorem resume_reports_out :
    ocdPrgmStart ∈ [ocdPrgmStart, ocdPrgmWriteIo, ocdPrgmCont] ∧
    TrapAt (load ocdPrgmStart default) (fun _ => outPins) 14 ∧
    ((load ocdPrgmStart default).run (fun _ => outPins) 30).ocd.stop = true ∧
    ocdGetReg 1 ((load ocdPrgmStart default).run (fun _ => outPins) 30).arch = 0x3F8 := by
  have hmem : ocdPrgmStart ∈ [ocdPrgmStart, ocdPrgmWriteIo, ocdPrgmCont] := List.mem_cons_self
  have h := resume_reports hmem default fun _ => outPins
  have ht : TrapAt (load ocdPrgmStart default) (fun _ => outPins) 14 := by
    refine ⟨?_, ?_, rfl, rfl⟩ <;> decide +kernel
  have hholds : CpuHolds (fun u => readyPin
      ((load ocdPrgmStart default).run (fun _ => outPins) u).ocd true) (fun _ => outPins) 14
      ⟨0x3F8, true, 0x41⟩ := fun _ _ _ => ⟨rfl, rfl, fun _ => rfl⟩
  have hready : ReadyOf (fun u => ((load ocdPrgmStart default).run (fun _ => outPins) u).ocd)
      (fun _ => true) _ 30 := fun _ _ => rfl
  exact ⟨hmem, ht, (h.stops ht 30).mpr (by decide), (h.regs ht (by decide) hready hholds).1⟩

end LsePc.Supervisor
