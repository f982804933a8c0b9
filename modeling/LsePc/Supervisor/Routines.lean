/-
  File:      LsePc/Supervisor/Routines.lean
  Subject:   What each routine of ocd_prgm.h does, on every bus.

  The straight-line routines are read off their symbolic execution; ocd_prgm_break
  branches on the address it captures and is treated in Break.lean.

  * `readIo_exits`, `getRegs_exits`, `setReg_exits`, `cont_drives`, `writeIo_drives`: the
    words the CPU is asked for and given;
  * `Access`, `Traps`, `Resumes`: a routine that lets the CPU go on ends at its next I/O
    access; `resumes_exits`: with the port in R1 and the direction in R2;
  * `acknowledges`: the routines that let the CPU finish a bus cycle it is held in;
    `finish_held`: the others keep it.
-/
import LsePc.Supervisor.Ocd

namespace LsePc.Supervisor

open LsePc.Bridge

/-! ## 1. Symbolic executions -/

theorem break_le : ocdPrgmBreak.length ≤ 512 := by simp [ocdPrgmBreak]

theorem getRegs_le : ocdPrgmGetRegs.length ≤ 512 := by simp [ocdPrgmGetRegs]

theorem cont_sym : ∃ t, symSteps (toWords ocdPrgmCont) 26 .start = some t ∧
    (toWords ocdPrgmCont)[t.pc]?.map mnem = some (some .exit) ∧
    t.regs 1 = .al 24 ∧ t.regs 2 = .wr 25 ∧
    t.out = [.imm 0x90CF, .imm 0x9090, .imm 0x9090, .imm 0x9090,
      .init 5, .init 6, .init 4, .init 0, .init 2, .init 3] := by
  refine ⟨_, rfl, ?_, ?_, ?_, ?_⟩ <;> decide

theorem reset_sym : ∃ t, symSteps (toWords ocdPrgmReset) 2 .start = some t ∧
    (toWords ocdPrgmReset)[t.pc]?.map mnem = some (some .exit) ∧
    (∀ r, t.regs r = .init r) ∧ t.out = [] := by
  refine ⟨_, rfl, ?_, ?_, ?_⟩ <;> decide

theorem readIo_sym : ∃ t, symSteps (toWords ocdPrgmReadIo) 1 .start = some t ∧
    (toWords ocdPrgmReadIo)[t.pc]?.map mnem = some (some .exit) ∧
    (∀ r, t.regs r = if r = 3 then .din 0 else .init r) := by
  refine ⟨_, rfl, ?_, ?_⟩ <;> decide

theorem getRegs_sym : ∃ t, symSteps (toWords ocdPrgmGetRegs) 61 .start = some t ∧
    (toWords ocdPrgmGetRegs)[t.pc]?.map mnem = some (some .exit) ∧
    (∀ r, t.regs r = .din (13 + 3 * r.toNat)) ∧
    t.taken = (List.range 16).map fun k => .din (13 + 3 * k) := by
  refine ⟨_, rfl, ?_, ?_, ?_⟩ <;> decide

theorem setReg_sym : ∃ t, symSteps (toWords ocdPrgmSetReg) 12 .start = some t ∧
    (toWords ocdPrgmSetReg)[t.pc]?.map mnem = some (some .exit) ∧
    t.out = [.init 1, .init 2, .init 3, .imm 0x9090, .imm 0x9090] := by
  refine ⟨_, rfl, ?_, ?_⟩ <;> decide

/-! ## 2. What they leave -/

section Routines

variable (σ : Arch) (bus : Nat → OcdIn)

/-- The reset routine leaves OCD_REGS alone. -/
theorem reset_exits : ∃ τ, ocdBusywait bus (ocdRun ocdPrgmReset σ) = some τ := by
  obtain ⟨t, hsym, hexit, -⟩ := reset_sym
  obtain ⟨τ, h⟩ := routine_done (by decide) hsym hexit (by decide) σ bus
  exact ⟨τ, h.exits⟩

/-- The data of a trapped OUT goes to R3. -/
theorem readIo_exits : ∃ τ, ocdBusywait bus (ocdRun ocdPrgmReadIo σ) = some τ ∧
    τ.reg 3 = (bus 0).din := by
  obtain ⟨t, hsym, hexit, hregs⟩ := readIo_sym
  obtain ⟨τ, h⟩ := routine_done (by decide) hsym hexit (by decide) σ bus
  refine ⟨τ, h.exits, ?_⟩
  rw [h.reg, hregs]
  rfl

/-- **The sixteen words of PUSHA** go to R0 to R15. -/
theorem getRegs_exits : ∃ τ, ∃ w : Nat → Word,
    ocdBusywait bus (ocdRun ocdPrgmGetRegs σ) = some τ ∧
    ocdCaptured bus (ocdRun ocdPrgmGetRegs σ) = (List.range 16).map w ∧
    ∀ r : BitVec 4, τ.reg r = w r.toNat := by
  obtain ⟨t, hsym, hexit, hregs, htaken⟩ := getRegs_sym
  obtain ⟨τ, h⟩ := routine_done getRegs_le hsym hexit (by decide) σ bus
  refine ⟨τ, fun k => (bus (13 + 3 * k)).din, h.exits, ?_, fun r => ?_⟩
  · rw [h.captured, htaken]
    rfl
  · rw [h.reg, hregs]
    rfl

/-- `MOV r32, imm32` with its operand from R1 to R3. -/
theorem setReg_exits : ∃ τ, ocdBusywait bus (ocdRun ocdPrgmSetReg σ) = some τ ∧
    ocdDriven bus (ocdRun ocdPrgmSetReg σ) = [σ.reg 1, σ.reg 2, σ.reg 3, 0x9090, 0x9090] := by
  obtain ⟨t, hsym, hexit, hout⟩ := setReg_sym
  obtain ⟨τ, h⟩ := routine_done (by decide) hsym hexit (by decide) σ bus
  refine ⟨τ, h.exits, ?_⟩
  rw [h.driven, hout]
  have hp : ocdPrgmSetReg.length ≤ 512 := by decide
  simp [Sym.eval, ocdRun_reg hp]

/-- **The instruction prefetch and the IRET frame** from R2 to R6. -/
theorem cont_drives : ocdDriven bus (ocdRun ocdPrgmCont σ) =
    [0x90CF, 0x9090, 0x9090, 0x9090,
      σ.reg 5, σ.reg 6, σ.reg 4, σ.reg 0, σ.reg 2, σ.reg 3] := by
  obtain ⟨t, hsym, hexit, -, -, hout⟩ := cont_sym
  obtain ⟨τ, h⟩ := routine_done (by decide) hsym hexit (by decide) σ bus
  rw [h.driven, hout]
  have hp : ocdPrgmCont.length ≤ 512 := by decide
  simp [Sym.eval, ocdRun_reg hp]

/-- The word for a trapped IN is the first thing the CPU gets. -/
theorem writeIo_drives : (ocdRun ocdPrgmWriteIo σ).drives = some (σ.reg 3) := by
  have hp : ocdPrgmWriteIo.length ≤ 512 := by decide
  have hpc := (ocdRun_boot (ocdRun_prog_le hp) σ).1
  have hinstr : (ocdRun ocdPrgmWriteIo σ).instr = 0x3430 := by
    rw [Arch.instr, hpc]
    exact loaded_ocdRun hp σ 0 0x3430 (by decide)
  have hop : (ocdRun ocdPrgmWriteIo σ).operand = (ocdRun ocdPrgmWriteIo σ).reg 3 := by
    rw [Arch.operand, Arch.srcAddr, hinstr]
    rfl
  rw [Arch.drives, hinstr, hop, ocdRun_reg hp]
  rfl

end Routines

/-! ## 3. The resume routines -/

/-- An I/O access of the CPU: an OUT (`wr`) of `data`, or an IN. -/
structure Access where
  port : Word
  wr : Bool
  data : Word
  deriving DecidableEq, Repr

/-- The pins while the CPU is held in the access. -/
structure Shows (i : OcdIn) (a : Access) : Prop where
  addr : i.a = a.port.setWidth 24
  wr : i.wr = a.wr
  data : a.wr = true → i.din = a.data

/-- The access that WAITIO catches stays on the pins from then on. -/
def Traps (σ : Arch) (bus : Nat → OcdIn) (a : Access) : Prop :=
  ∀ k, mnem (σ.finishes bus k).instr = some .waitio → ∀ j > k, Shows (bus j) a

/-- A routine whose instruction `k` is a WAITIO, and that ends with LDAL R1, LDWR R2. -/
def Resumes (prog : List Byte) : Prop :=
  ∃ k u t, k ≤ 100 ∧
    symSteps (toWords prog) k .start = some u ∧
    (toWords prog)[u.pc]?.map mnem = some (some .waitio) ∧
    symSteps (toWords prog) (k + 3) .start = some t ∧
    (toWords prog)[t.pc]?.map mnem = some (some .exit) ∧
    t.regs 1 = .al (k + 1) ∧ t.regs 2 = .wr (k + 2)

theorem resumes_start : Resumes ocdPrgmStart := by
  refine ⟨2, _, _, by decide, rfl, ?_, rfl, ?_, ?_, ?_⟩ <;> decide

theorem resumes_writeIo : Resumes ocdPrgmWriteIo := by
  refine ⟨2, _, _, by decide, rfl, ?_, rfl, ?_, ?_, ?_⟩ <;> decide

theorem resumes_cont : Resumes ocdPrgmCont := by
  refine ⟨23, _, _, by decide, rfl, ?_, rfl, ?_, ?_, ?_⟩ <;> decide

/-- What LDAL makes of a port: its upper address byte is 0. -/
theorem port_low (p : Word) : ((p.setWidth 24).setWidth 16 ||| ((p.setWidth 24) >>> 16).setWidth 16)
    = p := by
  ext i h
  simp

/-- **A resume routine ends at the next I/O access**, with its port in R1 and its direction
    in R2. -/
theorem resumes_exits {prog : List Byte} (hp : prog.length ≤ 512) (h : Resumes prog) {σ : Arch}
    {bus : Nat → OcdIn} {a : Access} (ha : Traps (ocdRun prog σ) bus a) :
    ∃ τ, ocdBusywait bus (ocdRun prog σ) = some τ ∧ ocdGetReg 1 τ = a.port ∧
      ocdGetReg 2 τ = Arch.level a.wr := by
  obtain ⟨k, u, t, hk, hu, hwait, ht, hexit, h1, h2⟩ := h
  obtain ⟨huk, hrep⟩ := symRep_ocdRun hp hu σ bus
  have hinstr := symRep_instr (loaded_ocdRun hp σ) hrep hwait
  rw [huk] at hinstr
  have hshow := ha k hinstr
  obtain ⟨τ, hdone⟩ := routine_done hp ht hexit (by omega) σ bus
  refine ⟨τ, hdone.exits, ?_, ?_⟩
  · show τ.reg 1 = a.port
    rw [hdone.reg, h1, Sym.eval, (hshow (k + 1) (by omega)).addr]
    exact port_low a.port
  · show τ.reg 2 = Arch.level a.wr
    rw [hdone.reg, h2, Sym.eval, (hshow (k + 2) (by omega)).wr]

/-! ## 4. READY# -/

/-- The CPU is held in its bus cycle: the unit is attached and READY# is not asserted. -/
def held (σ : Arch) : Bool := σ.en && σ.readyN

/-- The instructions that let the CPU finish its bus cycle. -/
def acks (w : Word) : Bool :=
  instrDetach w || instrReady w || instrWaitads w || instrWaitlock w || instrStd w

/-- No other instruction lets it. -/
theorem finish_held {σ : Arch} (h : held σ = true) (hack : acks σ.instr = false) (i : OcdIn) :
    held (σ.finish i) = true := by
  unfold held at h ⊢
  simp only [Bool.and_eq_true] at h ⊢
  obtain ⟨hen, hready⟩ := h
  simp only [acks, wires, Bool.or_eq_false_iff, decide_eq_false_iff_not] at hack
  rw [Arch.finish, Arch.step]
  cases hm : mnem σ.instr with
  | none => exact ⟨hen, hready⟩
  | some m =>
    cases m <;> simp [hm] at hack <;> simp only [Arch.exec] <;> (try split) <;>
      simp [Arch.next, Arch.goto, Arch.caught, Arch.setReg, hen, hready]

/-- A routine with an instruction that lets the CPU finish its bus cycle. -/
def acknowledges (prog : List Byte) : Bool := (toWords prog).any acks

section Straight

variable {prog : List Byte} {n : Nat} {t : SymState}

/-- A straight-line routine carries out its own words. -/
theorem straight_mem (hp : prog.length ≤ 512) (hsym : symSteps (toWords prog) n .start = some t)
    (hexit : (toWords prog)[t.pc]?.map mnem = some (some .exit)) (σ : Arch) (bus : Nat → OcdIn)
    (k : Nat) : ((ocdRun prog σ).finishes bus k).instr ∈ toWords prog := by
  have hload := loaded_ocdRun hp σ
  -- up to EXIT the word is the one the symbolic execution looks at
  have hword : ∀ k ≤ n, ((ocdRun prog σ).finishes bus k).instr ∈ toWords prog := by
    intro k hk
    obtain ⟨c, rfl⟩ := Nat.exists_eq_add_of_le hk
    obtain ⟨u, hu, hrest⟩ := symSteps_prefix hsym
    obtain ⟨huk, hrep⟩ := symRep_ocdRun hp hu σ bus
    have hsome : ∃ w, (toWords prog)[u.pc]? = some w := by
      cases c with
      | zero =>
        cases hrest
        obtain ⟨w, hw, -⟩ := Option.map_eq_some_iff.mp hexit
        exact ⟨w, hw⟩
      | succ c =>
        rw [symSteps, Option.bind_eq_some_iff] at hrest
        obtain ⟨v, hv, -⟩ := hrest
        cases hw : (toWords prog)[u.pc]? with
        | none => simp [symStep, hw] at hv
        | some w => exact ⟨w, rfl⟩
    obtain ⟨w, hw⟩ := hsome
    rw [← huk, Arch.instr, hrep.pc, Arch.finishes_prog, hload u.pc w hw]
    exact List.mem_of_getElem? hw
  rcases Nat.le_total k n with hk | hk
  · exact hword k hk
  · obtain ⟨htk, hrep⟩ := symRep_ocdRun hp hsym σ bus
    have hex := symRep_instr hload hrep hexit
    rw [htk] at hex
    obtain ⟨c, rfl⟩ := Nat.exists_eq_add_of_le hk
    cases c with
    | zero => exact hword n (le_refl n)
    | succ c =>
      rw [← Nat.add_assoc, Arch.finishes_exit hex c]
      exact hword n (le_refl n)

/-- **A routine that does not acknowledge keeps the CPU held.** -/
theorem straight_held (hp : prog.length ≤ 512) (hsym : symSteps (toWords prog) n .start = some t)
    (hexit : (toWords prog)[t.pc]?.map mnem = some (some .exit)) (hack : acknowledges prog = false)
    {σ : Arch} (h : held σ = true) (bus : Nat → OcdIn) (k : Nat) :
    held ((ocdRun prog σ).finishes bus k) = true := by
  induction k with
  | zero =>
    rw [Arch.finishes_zero, ocdRun, if_neg (Nat.not_lt.mpr (ocdRun_prog_le hp))]
    exact h
  | succ k ih =>
    have hmem := straight_mem hp hsym hexit σ bus k
    have hno : ∀ w ∈ toWords prog, acks w = false := by
      simpa [acknowledges] using hack
    exact finish_held ih (hno _ hmem) (bus k)

/-- An acknowledging instruction a routine comes to on every bus. -/
theorem acks_at (hp : prog.length ≤ 512) (hsym : symSteps (toWords prog) n .start = some t)
    (hack : (toWords prog)[t.pc]?.map acks = some true) (σ : Arch) (bus : Nat → OcdIn) :
    acks ((ocdRun prog σ).finishes bus n).instr = true := by
  obtain ⟨htk, hrep⟩ := symRep_ocdRun hp hsym σ bus
  obtain ⟨w, hw, hmw⟩ := Option.map_eq_some_iff.mp hack
  rw [← htk, Arch.instr, hrep.pc, Arch.finishes_prog, loaded_ocdRun hp σ t.pc w hw, hmw]

end Straight

/-- **What READY# does in a trapped access**: read_io keeps the CPU held, and every other
    routine but reset lets it go on. -/
theorem routines_ready (σ : Arch) (bus : Nat → OcdIn) :
    (held σ = true → ∀ k, held ((ocdRun ocdPrgmReadIo σ).finishes bus k) = true) ∧
    ∀ prog ∈ [ocdPrgmStart, ocdPrgmWriteIo, ocdPrgmCont, ocdPrgmBreak, ocdPrgmSetReg,
      ocdPrgmGetRegs], ∃ k, acks ((ocdRun prog σ).finishes bus k).instr = true := by
  constructor
  · intro h k
    obtain ⟨t, hsym, hexit, -⟩ := readIo_sym
    exact straight_held (by decide) hsym hexit (by decide) h bus k
  · intro prog hprog
    simp only [List.mem_cons, List.not_mem_nil, or_false] at hprog
    rcases hprog with rfl | rfl | rfl | rfl | rfl | rfl
    · exact ⟨1, acks_at (by decide) (t := ⟨1, 1, .init, [], []⟩) rfl (by decide) σ bus⟩
    · exact ⟨0, acks_at (by decide) (t := .start) rfl (by decide) σ bus⟩
    · exact ⟨2, acks_at (by decide) rfl (by decide) σ bus⟩
    · exact ⟨1, acks_at break_le rfl (by decide) σ bus⟩
    · exact ⟨1, acks_at (by decide) rfl (by decide) σ bus⟩
    · exact ⟨2, acks_at getRegs_le rfl (by decide) σ bus⟩

end LsePc.Supervisor
