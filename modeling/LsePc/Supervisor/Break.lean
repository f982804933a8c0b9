/-
  File:      LsePc/Supervisor/Break.lean
  Subject:   ocd_prgm_break: how a break tells the mode of the CPU.

  The routine compares the address of the interrupt-table access with 0x000008. ocd.v
  loads 0 for its upper part (LDAH), and the routine is assembled with BEQ where
  ocd_prgm.s has BNE: both ways through its two branches lead to break_protected_mode.

  * `break_exits`: on every bus the routine takes the protected-mode part, saves the
    context in R2 to R6 and leaves 1 in R1;
  * `LockedCycle`: the access after the NMI, on the clocked unit;
  * `brk_mode_iff`: the status of the break is right exactly if the CPU was in protected
    mode.
-/
import LsePc.Supervisor.Supervisor

namespace LsePc.Supervisor

open LsePc.Bridge

/-! ## 1. The routine on every bus -/

theorem break_words_le : (toWords ocdPrgmBreak).length ≤ 256 := by
  have h := break_le
  rw [length_toWords]
  omega

/-- The routine up to its first branch. -/
theorem break_head_sym : ∃ t, symSteps (toWords ocdPrgmBreak) 7 .start = some t ∧
    t.k = 7 ∧ t.pc = 8 ∧ t.regs 3 = .imm 0 ∧ t.out = [] ∧ t.taken = [] := by
  refine ⟨_, rfl, ?_, ?_, ?_, ?_, ?_⟩ <;> decide

/-- What break_protected_mode makes of any registers. -/
theorem break_tail_sym (k : Nat) (regs : BitVec 4 → Sym) :
    ∃ t, symSteps (toWords ocdPrgmBreak) 45 ⟨k, 0x0b, regs, [], []⟩ = some t ∧
    t.k = k + 45 ∧ t.pc = 0x42 ∧ t.regs 1 = .imm 1 ∧
    t.taken = [t.regs 2, t.regs 3, t.regs 4, t.regs 5, t.regs 6] :=
  ⟨_, rfl, rfl, rfl, rfl, rfl⟩

/-- What a break leaves: protected mode in R1, and the words of the five context-saving
    LDD instructions in R2 to R6. -/
structure Broken (bus : Nat → OcdIn) (σ τ : Arch) : Prop where
  exits : ocdBusywait bus σ = some τ
  mode : τ.reg 1 = 1
  saved : ocdCaptured bus σ = [τ.reg 2, τ.reg 3, τ.reg 4, τ.reg 5, τ.reg 6]

section Routine

variable (σ : Arch) (bus : Nat → OcdIn)

/-- **Both branches of the routine lead to break_protected_mode.** -/
theorem break_protected : ∃ k ≤ 10, ∃ regs,
    SymRep (ocdRun ocdPrgmBreak σ) bus ⟨k, 0x0b, regs, [], []⟩ := by
  have hload := loaded_ocdRun break_le σ
  have hpc := (ocdRun_boot (ocdRun_prog_le break_le) σ).1
  generalize ocdRun ocdPrgmBreak σ = σ0 at *
  obtain ⟨⟨k, p, regs, out, taken⟩, hsym, rfl, rfl, hr3, rfl, rfl⟩ := break_head_sym
  obtain ⟨-, h7⟩ := symSteps_sound hload break_words_le (SymRep.start hpc bus) hsym
  have hbeq7 : (toWords ocdPrgmBreak)[8]? = some 0x710b := by decide
  have h8 := symRep_beq hload h7 hbeq7 (by decide)
  by_cases hc : (σ0.finishes bus 7).cmpr ≠ 0
  · simp only [if_pos hc] at h8
    exact ⟨8, by decide, regs, h8⟩
  · -- the address was not 0x0008: LDCMP R3 compares with the word LDAH has left
    simp only [if_neg hc] at h8
    have hldcmp : symStep (toWords ocdPrgmBreak) ⟨8, 9, regs, [], []⟩ =
        some ⟨9, 0x0a, regs, [], []⟩ := rfl
    obtain ⟨-, h9⟩ := symStep_sound hload break_words_le h8 hldcmp
    have hcmpr : (σ0.finishes bus 9).cmpr = 0 := by
      have hinstr : (σ0.finishes bus 8).instr = 0x2830 := by
        rw [Arch.instr, h8.pc, Arch.finishes_prog, hload 9 0x2830 (by decide)]
      have hr : (σ0.finishes bus 8).reg 3 = 0 := by
        rw [h8.regs, hr3]
        rfl
      rw [Arch.finishes_succ, Arch.finish, Arch.step, hinstr,
        show mnem 0x2830 = some .ldcmp by decide]
      show (σ0.finishes bus 8).operand = 0
      rw [Arch.operand, Arch.srcAddr, hinstr]
      exact hr
    have hbeq10 : (toWords ocdPrgmBreak)[10]? = some 0x7143 := by decide
    have h10 := symRep_beq hload h9 hbeq10 (by decide)
    simp only [hcmpr, ne_eq, not_true_eq_false, if_false] at h10
    exact ⟨10, le_refl 10, regs, h10⟩

/-- **A break always finds protected mode**, whatever is on the bus. -/
theorem break_exits : ∃ n < 256,
    mnem ((ocdRun ocdPrgmBreak σ).finishes bus n).instr = some .exit ∧
    ∃ τ, Broken bus (ocdRun ocdPrgmBreak σ) τ := by
  have hload := loaded_ocdRun break_le σ
  have hs := (ocdRun_boot (ocdRun_prog_le break_le) σ).2
  obtain ⟨k, hk, regs, hrep⟩ := break_protected σ bus
  obtain ⟨t, hsym, htk, htp, h1, htaken⟩ := break_tail_sym k regs
  obtain ⟨-, hend⟩ := symSteps_sound hload break_words_le hrep hsym
  have hexit : (toWords ocdPrgmBreak)[t.pc]?.map mnem = some (some .exit) := by
    rw [htp]
    decide
  obtain ⟨hinstr, hdone⟩ := symRep_done hs hend hload hexit (by omega)
  refine ⟨t.k, by omega, hinstr, _, ⟨hdone.exits, ?_, ?_⟩⟩
  · rw [hdone.reg, h1]
    rfl
  · rw [hdone.captured, htaken]
    simp only [List.map_cons, List.map_nil, hdone.reg]

end Routine

/-! ## 2. The mode `sv_brk` reports -/

/-- `sv_brk` of a machine whose unit has carried out the routine. -/
theorem svBroken_status (m : Machine) {bus : Nat → OcdIn} {σ : Arch}
    (h : Broken bus σ m.ocd) : (svBroken m).sv.status = .brk32 := by
  have hmode : ocdGetReg 1 m.ocd = 1 := h.mode
  unfold svBroken
  simp only [hmode]
  rfl

/-- The first LOCK#ed cycle from then on shows the address `a`. -/
def LockedCycle (inp : Nat → OcdIn) (a : BitVec 24) : Prop :=
  ∃ t ≥ 9, (∀ u, 9 ≤ u → u < t → ¬ ((inp u).adsN = false ∧ (inp u).lockN = false)) ∧
    (inp t).adsN = false ∧ (inp t).lockN = false ∧ (inp t).a = a

/-- The NMI entry of the real-mode vector table. -/
def nmiVector : BitVec 24 := 0x000008

/-- The break of a clocked unit tells the mode of the CPU: it comes to EXIT, and `sv_brk`
    then sets the status that goes with the address of the LOCK#ed cycle. -/
def BreakTells (m : Machine) (x : OcdSys) (inp : Nat → OcdIn) : Prop :=
  ∀ a, LockedCycle inp a → ∃ T, ∀ t ≥ T,
    ((load ocdPrgmBreak x).run inp t).ocd.stop = true ∧
    (svBroken { m with ocd := ((load ocdPrgmBreak x).run inp t).arch }).sv.status =
      if a = nmiVector then .brk16 else .brk32

/-- Where the waits of the routine end the break always reports protected mode. -/
theorem brk_status (m : Machine) {x : OcdSys} {inp : Nat → OcdIn}
    (hl : WaitsEnd (load ocdPrgmBreak x) inp) : ∃ T, ∀ t ≥ T,
    ((load ocdPrgmBreak x).run inp t).ocd.stop = true ∧
    (svBroken { m with ocd := ((load ocdPrgmBreak x).run inp t).arch }).sv.status = .brk32 := by
  obtain ⟨bus, T, hT⟩ := load_exits break_le hl fun bus =>
    let ⟨n, hn, hex, _⟩ := break_exits x.arch bus
    ⟨n, hn, hex⟩
  refine ⟨T, fun t ht => ?_⟩
  obtain ⟨-, -, -, τ, hτ⟩ := break_exits x.arch bus
  have heq : ((load ocdPrgmBreak x).run inp t).arch = τ :=
    Option.some.inj ((hT t ht).symm.trans hτ.exits)
  rw [← heq] at hτ
  exact ⟨Arch.toExit_stop (hT t ht), svBroken_status { m with ocd := _ } hτ⟩

/-- A break of real mode is reported as one of protected mode. -/
theorem not_breakTells (m : Machine) {x : OcdSys} {inp : Nat → OcdIn}
    (hl : WaitsEnd (load ocdPrgmBreak x) inp) (ha : LockedCycle inp nmiVector) :
    ¬ BreakTells m x inp := by
  intro h
  obtain ⟨T, hT⟩ := brk_status m hl
  obtain ⟨T', hT'⟩ := h nmiVector ha
  have h16 := (hT' (max T T') (Nat.le_max_right T T')).2
  rw [(hT (max T T') (Nat.le_max_left T T')).2, if_pos rfl] at h16
  cases h16

/-- **`sv_brk` tells the mode of the CPU exactly if it does not break real mode.** -/
theorem brk_mode_iff (m : Machine) (x : OcdSys) (inp : Nat → OcdIn)
    (hl : WaitsEnd (load ocdPrgmBreak x) inp) :
    BreakTells m x inp ↔ ¬ LockedCycle inp nmiVector := by
  constructor
  · exact fun h ha => not_breakTells m hl ha h
  · intro h a ha
    obtain ⟨T, hT⟩ := brk_status m hl
    have hne : a ≠ nmiVector := by
      intro he
      obtain rfl := he
      exact h ha
    refine ⟨T, fun t ht => ?_⟩
    rw [if_neg hne]
    exact hT t ht

/-- A CPU at whose LOCK#ed cycle the address is `a`, and that never makes the unit wait. -/
def lockedPins (a : BitVec 24) : OcdIn :=
  { adsN := false, lockN := false, a, din := 0, hlda := true, wr := false, dc := false,
    mio := false }

theorem brk_mode_iff_protected : BreakTells default default fun _ => lockedPins 0x00d068 :=
  (brk_mode_iff default default (fun _ => lockedPins 0x00d068)
    (waitsEnd_const (lockedPins 0x00d068) rfl rfl rfl rfl _)).mpr
      fun ⟨_, _, _, _, _, ha⟩ =>
        absurd (show (0x00d068 : BitVec 24) = nmiVector from ha) (by decide)

/-- A CPU in real mode, with the NMI entry of its vector table on the address bus. -/
theorem brk_real_mode : ¬ BreakTells default default fun _ => lockedPins nmiVector :=
  not_breakTells default (waitsEnd_const (lockedPins nmiVector) rfl rfl rfl rfl _)
    ⟨9, le_refl 9, fun _ h9 hlt => absurd h9 (Nat.not_le.mpr hlt), rfl, rfl, rfl⟩

end LsePc.Supervisor
