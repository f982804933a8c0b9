/-
  File:      LsePc/Bridge/OcdStraight.lean
  Subject:   A straight-line routine in every clock of its run.

  OcdRoutine.lean says what a routine has done once it is through. This file counts the
  instructions completed before each clock, so that what holds between two of them can be
  said of every clock, on every trace and however long the waits are.

  * `OcdSys.completes`, `OcdSys.index`: the clocks in which instructions complete, and how
    many have; `index_reach`, `index_inj`: each instruction completes in one clock;
  * `index_induct`: what an EXEC clock keeps holds in every clock of a run;
  * `OnBus`: the bus of OcdRoutine.lean, on the clocks of a run;
  * `codeAt`, `Reaches`: the instruction a routine is at after `n` others.
-/
import LsePc.Bridge.OcdSymbolic

namespace LsePc.Bridge

open LsePc.Lib

/-! ## 1. Counting instructions -/

namespace OcdSys

/-- The instruction in EXEC completes in this clock. -/
def completes (x : OcdSys) (i : OcdIn) : Bool := inExec x && !execWait x.ocd.instr i

/-- The instructions completed in the clocks before `u`. -/
def index (x : OcdSys) (inp : Nat → OcdIn) : Nat → Nat
  | 0 => 0
  | u + 1 => index x inp u + if (x.run inp u).completes (inp u) then 1 else 0

end OcdSys

section Index

variable {x : OcdSys} {inp : Nat → OcdIn}

theorem index_done {t : Nat} (h : (x.run inp t).completes (inp t) = true) :
    x.index inp (t + 1) = x.index inp t + 1 := by
  rw [OcdSys.index, if_pos h]

theorem index_wait {t : Nat} (h : (x.run inp t).completes (inp t) = false) :
    x.index inp (t + 1) = x.index inp t := by
  rw [OcdSys.index, if_neg (by simp [h])]
  rfl

theorem index_mono (x : OcdSys) (inp : Nat → OcdIn) {t u : Nat} (h : t ≤ u) :
    x.index inp t ≤ x.index inp u := by
  induction u, h using Nat.le_induction with
  | base => exact le_refl _
  | succ u _ ih => exact Nat.le_trans ih (Nat.le_add_right _ _)

/-- An instruction that has completed is counted from the next clock on. -/
theorem index_lt {t u : Nat} (h : (x.run inp t).completes (inp t) = true) (htu : t < u) :
    x.index inp t < x.index inp u := by
  have hle := index_mono x inp (Nat.succ_le_of_lt htu)
  rw [Nat.succ_eq_add_one, index_done h] at hle
  exact hle

/-- Every instruction counted has completed in a clock of its own. -/
theorem index_reach {n u : Nat} (h : n < x.index inp u) :
    ∃ t < u, x.index inp t = n ∧ (x.run inp t).completes (inp t) = true := by
  induction u with
  | zero => exact absurd h (Nat.not_lt_zero n)
  | succ u ih =>
    cases hc : (x.run inp u).completes (inp u) with
    | false =>
      rw [index_wait hc] at h
      obtain ⟨t, ht, hn⟩ := ih h
      exact ⟨t, Nat.lt_succ_of_lt ht, hn⟩
    | true =>
      rw [index_done hc] at h
      rcases Nat.lt_succ_iff_lt_or_eq.mp h with hlt | rfl
      · obtain ⟨t, ht, hn⟩ := ih hlt
        exact ⟨t, Nat.lt_succ_of_lt ht, hn⟩
      · exact ⟨u, Nat.lt_succ_self u, rfl, hc⟩

theorem index_inj {t u : Nat} (ht : (x.run inp t).completes (inp t) = true)
    (hu : (x.run inp u).completes (inp u) = true) (h : x.index inp t = x.index inp u) :
    t = u := by
  rcases Nat.lt_trichotomy t u with hlt | rfl | hgt
  · exact absurd h (Nat.ne_of_lt (index_lt ht hlt))
  · rfl
  · exact absurd h.symm (Nat.ne_of_lt (index_lt hu hgt))

/-- STORE follows a completed instruction, and nothing else. -/
theorem run_store (u : Nat) :
    (x.run inp (u + 1)).ocd.state = .store ↔ (x.run inp u).completes (inp u) = true := by
  rw [run_state]
  unfold OcdSys.completes inExec
  cases (x.run inp u).ocd.state <;> simp

theorem not_completes {t : Nat} (h : (x.run inp t).ocd.state ≠ .exec) :
    (x.run inp t).completes (inp t) = false := by
  unfold OcdSys.completes inExec
  rw [beq_eq_false_iff_ne.mpr h]
  rfl

/-- The next FETCH, three clocks after an instruction has completed. -/
theorem run_refetch {t : Nat} (h : (x.run inp t).completes (inp t) = true) :
    (x.run inp (t + 3)).ocd.state = .fetch ∧ x.index inp (t + 3) = x.index inp t + 1 := by
  have h1 := (run_store t).mpr h
  have h2 : (x.run inp (t + 2)).ocd.state = .storeFetch := by
    rw [run_state, h1]
  have h3 : (x.run inp (t + 3)).ocd.state = .fetch := by
    rw [run_state, h2]
  refine ⟨h3, ?_⟩
  rw [index_wait (not_completes (by rw [h2]; decide)),
    index_wait (not_completes (by rw [h1]; decide)), index_done h]

/-- **The bus of a run**: the pins in the clocks in which its instructions complete. -/
def OnBus (x : OcdSys) (inp bus : Nat → OcdIn) : Prop :=
  ∀ u, (x.run inp u).completes (inp u) = true → bus (x.index inp u) = inp u

end Index

/-! ## 2. What the unit shows between two instructions -/

section Shows

variable {x : OcdSys} {σ : Arch}

theorem InPhase.arch (h : InPhase x σ) (hs : x.ocd.state ≠ .store) : x.arch = σ := by
  cases h with
  | fetch _ ha => exact ha
  | load _ ha => exact ha
  | exec _ ha => exact ha
  | store h _ => exact absurd h hs
  | storeFetch _ ha => exact ha

/-- STORE is the only state that holds an instruction back, and `stop` is no part of it. -/
theorem InPhase.stop (h : InPhase x σ) : x.ocd.stop = σ.stop := by
  by_cases hs : x.ocd.state = .store
  · cases h with
    | store _ h =>
      rw [← (h default).2]
      show _ = ((x.ocd.tick default x.mem.readdata).stop)
      rw [Ocd.tick, hs]
      rfl
    | fetch h _ => rw [h.state] at hs; cases hs
    | load h _ => rw [h.state] at hs; cases hs
    | exec h _ => rw [h.state] at hs; cases hs
    | storeFetch h _ => rw [h.state] at hs; cases hs
  · rw [← h.arch hs]
    rfl

/-- **Induction on the clocks of a run**: what a clock of waiting and a completed instruction
    keep, the latter counted, holds in every clock. -/
theorem index_induct {P : Arch → Nat → Prop} (h : InPhase x σ) (h0 : P σ 0)
    (hwait : ∀ τ n i, P τ n → execWait τ.instr i = true → P (τ.step i) n)
    (hdone : ∀ τ n i, P τ n → execWait τ.instr i = false → P (τ.step i) (n + 1))
    (inp : Nat → OcdIn) (u : Nat) :
    ∃ τ, InPhase (x.run inp u) τ ∧ P τ (x.index inp u) := by
  induction u with
  | zero => exact ⟨σ, h, h0⟩
  | succ u ih =>
    obtain ⟨τ, hph, hP⟩ := ih
    refine ⟨_, inPhase_clk hph (inp u), ?_⟩
    cases hx : inExec (x.run inp u) with
    | false =>
      rw [index_wait (by rw [OcdSys.completes, hx]; rfl)]
      exact hP
    | true =>
      obtain ⟨hex, harch⟩ := hph.atExec (beq_iff_eq.mp hx)
      have hinstr : (x.run inp u).ocd.instr = τ.instr := by
        rw [hex.instr, harch]
      cases hw : execWait τ.instr (inp u) with
      | true =>
        rw [index_wait (by rw [OcdSys.completes, hinstr, hw, hx]; rfl)]
        exact hwait τ _ _ hP hw
      | false =>
        rw [index_done (by rw [OcdSys.completes, hinstr, hw, hx]; rfl)]
        exact hdone τ _ _ hP hw

end Shows

/-! ## 3. The instruction a routine is at -/

/-- The word a routine comes to after `n` instructions. -/
def codeAt (ws : List Word) (n : Nat) : Option Word :=
  (symSteps ws n .start).bind fun t => ws[t.pc]?

/-- The unit after `n` instructions of the routine `ws`. -/
structure Reaches (ws : List Word) (σ : Arch) (n : Nat) : Prop where
  loaded : Loaded σ ws
  pc : ∃ t, symSteps ws n .start = some t ∧ σ.pc = BitVec.ofNat 8 t.pc

section Reaches

variable {ws : List Word} {σ : Arch} {n : Nat}

theorem Reaches.start (hload : Loaded σ ws) (hpc : σ.pc = 0) : Reaches ws σ 0 :=
  ⟨hload, .start, rfl, hpc⟩

theorem Reaches.instr (h : Reaches ws σ n) {w : Word} (hw : codeAt ws n = some w) :
    σ.instr = w := by
  obtain ⟨t, ht, hpc⟩ := h.pc
  rw [codeAt, ht, Option.bind_some] at hw
  rw [Arch.instr, hpc]
  exact h.loaded t.pc w hw

theorem Loaded.step (h : Loaded σ ws) (i : OcdIn) : Loaded (σ.step i) ws := by
  intro k w hw
  rw [Arch.step_prog]
  exact h k w hw

/-- A clock of waiting stays at the instruction. -/
theorem Reaches.wait (h : Reaches ws σ n) {i : OcdIn} (hw : execWait σ.instr i = true) :
    Reaches ws (σ.step i) n := by
  obtain ⟨t, ht, hpc⟩ := h.pc
  rw [execWait_readme] at hw
  exact ⟨h.loaded.step i, t, ht, (step_wait_same σ i hw).pc.trans hpc⟩

theorem symStep_some {t t' : SymState} (h : symStep ws t = some t') :
    ∃ w, ws[t.pc]? = some w ∧ isFlow w = false ∧ t'.pc = t.pc + if instrLdi w then 2 else 1 := by
  unfold symStep at h
  split at h
  case h_2 => cases h
  case h_1 w imm hw himm =>
    cases hf : isFlow w with
    | true => simp [hf] at h
    | false =>
      rw [hf, if_neg (by decide)] at h
      cases h
      exact ⟨w, hw, hf, rfl⟩

/-- A completed instruction goes on to the next one. -/
theorem Reaches.done (h : Reaches ws σ n) {i : OcdIn} (hw : execWait σ.instr i = false)
    {t : SymState} (ht : symSteps ws (n + 1) .start = some t) :
    Reaches ws (σ.step i) (n + 1) := by
  obtain ⟨u, hu, hpc⟩ := h.pc
  obtain ⟨u', hu', hone⟩ := symSteps_prefix ht
  obtain rfl : u = u' := Option.some.inj (hu.symm.trans hu')
  rw [symSteps, Option.bind_eq_some_iff] at hone
  obtain ⟨t', hstep, hlast⟩ := hone
  obtain rfl : t' = t := Option.some.inj hlast
  obtain ⟨w, hword, hflow, hnext⟩ := symStep_some hstep
  have hinstr : σ.instr = w := by
    rw [Arch.instr, hpc]
    exact h.loaded u.pc w hword
  refine ⟨h.loaded.step i, t', ht, ?_⟩
  rw [← Arch.finish_eq_step hw, finish_pc_straight (hinstr ▸ hflow), hinstr, hpc, hnext,
    BitVec.ofNat_add]
  split <;> rfl

end Reaches

end LsePc.Bridge
