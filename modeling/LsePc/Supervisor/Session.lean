/-
  File:      LsePc/Supervisor/Session.lean
  Subject:   A protected-mode debug session: from a break to the next cont.

  * `pair`: a 32-bit register as the two words of the bus;
  * `Saved`: the machine in ST_BRK32 that holds the context it has taken from the CPU;
    `saved_brk`, `saved_turn`, `saved_turns`: a break leaves one, and no command but stop
    and cont ends it;
  * `RegsReported`: what a get-regs captures, reports and re-injects;
  * `session_returns`: the CPU gets back what was taken from it.
-/
import LsePc.Supervisor.Callbacks

namespace LsePc.Supervisor

open LsePc.Bridge

/-! ## 1. Registers as pairs of words -/

def pair (lo hi : Word) : BitVec 32 := hi ++ lo

theorem pair_toNat (lo hi : Word) : (pair lo hi).toNat = hi.toNat * 65536 + lo.toNat := by
  have h : (pair lo hi).toNat = hi.toNat <<< 16 ||| lo.toNat := BitVec.toNat_append hi lo
  rw [h, ← Nat.shiftLeft_add_eq_or_of_lt lo.isLt, Nat.shiftLeft_eq]

theorem pair_low (lo hi : Word) : (pair lo hi).setWidth 16 = lo := by
  apply BitVec.eq_of_toNat_eq
  rw [BitVec.toNat_setWidth, pair_toNat]
  omega

theorem pair_high (lo hi : Word) : (pair lo hi >>> 16).setWidth 16 = hi := by
  apply BitVec.eq_of_toNat_eq
  rw [BitVec.toNat_setWidth, BitVec.toNat_ushiftRight, pair_toNat, Nat.shiftRight_eq_div_pow]
  omega

theorem ocdGetReg32_pair (id : Byte) (σ : Arch) :
    ocdGetReg32 id σ = pair (ocdGetReg id σ) (ocdGetReg (id + 1) σ) := by
  unfold ocdGetReg32
  generalize ocdGetReg id σ = lo
  generalize ocdGetReg (id + 1) σ = hi
  ext i h
  have hp : (pair lo hi)[i] = if i < 16 then lo.getLsbD i else hi.getLsbD (i - 16) :=
    BitVec.getLsbD_append
  rw [hp]
  by_cases h16 : i < 16
  · simp [h16]
  · have hlo : lo.getLsbD i = false := BitVec.getLsbD_of_ge _ _ (by omega)
    simp [h16, hlo]

theorem espBrk_espRun (x : BitVec 32) : espBrk (espRun x) = x := BitVec.add_sub_cancel x 12

/-! ## 2. The context in ST_BRK32 -/

/-- The words of EFLAGS, CS and EIP a break has captured. -/
structure Context where
  f0 : Word
  f1 : Word
  c : Word
  e0 : Word
  e1 : Word

/-- The supervisor is in ST_BRK32 with the context `x`, the unit idle. -/
structure Saved (x : Context) (m : Machine) : Prop where
  status : m.sv.status = .brk32
  eflags : m.sv.regs.eflags = pair x.f0 x.f1
  cs : m.sv.regs.cs = x.c
  eip : m.sv.regs.eip = pair x.e0 x.e1

/-- A break leaves the words of the five context-saving LDD instructions. -/
theorem saved_brk {m m' : Machine} (h : svBrk m = some (0, m')) (h32 : m'.sv.status = .brk32) :
    ∃ x : Context, ocdCaptured m.bus (ocdRun ocdPrgmBreak m.ocd) = [x.f0, x.f1, x.c, x.e0, x.e1] ∧
      Saved x m' := by
  by_cases hs : m.sv.status = .running
  · obtain ⟨τ, hb, heq⟩ := svBrk_eq m hs
    rw [heq] at h
    cases h
    refine ⟨⟨τ.reg 2, τ.reg 3, τ.reg 4, τ.reg 5, τ.reg 6⟩, hb.saved, h32,
      ?_, ?_, ?_⟩
    all_goals
      unfold svBroken
      simp only [ocdGetReg32_pair]
      split <;> rfl
  · rw [svBrk, if_neg hs] at h
    cases h

/-- **What a get-regs does**: it captures sixteen words `w`, reports them as the registers
    and re-injects the stack pointer it has captured. -/
def RegsReported (m : Machine) : Prop :=
  ∃ w : Nat → Word, ∃ driven captured,
    (m.command .getRegs).2.out = m.out ++
      [.run ocdPrgmGetRegs, .waited driven ((List.range 16).map w),
        .run ocdPrgmSetReg, .waited [0xBC90, w 6, w 7, 0x9090, 0x9090] captured] ∧
    (m.command .getRegs).1 = SvRegs.bytes {
      valid := 0
      eflags := m.sv.regs.eflags
      eip := m.sv.regs.eip
      cs := m.sv.regs.cs
      edi := pair (w 0) (w 1)
      esi := pair (w 2) (w 3)
      ebp := pair (w 4) (w 5)
      esp := pair (w 6) (w 7) + 12
      ebx := pair (w 8) (w 9)
      edx := pair (w 10) (w 11)
      ecx := pair (w 12) (w 13)
      eax := pair (w 14) (w 15) }

/-- The sixteen data registers of the unit. -/
theorem ocdRegs_eq : ∀ id : Byte, id.toNat < 16 → ocdRegs id = Arch.regAddr (id.setWidth 4) := by
  decide

/-- The registers after `ocd_prgm_get_regs` has left the words `w` in R0 to R15. -/
theorem svRead_regs {m : Machine} {w : Nat → Word} (h : ∀ r : BitVec 4, m.ocd.reg r = w r.toNat) :
    (svRead m).sv.regs = { m.sv.regs with
      edi := pair (w 0) (w 1)
      esi := pair (w 2) (w 3)
      ebp := pair (w 4) (w 5)
      esp := pair (w 6) (w 7) + 12
      ebx := pair (w 8) (w 9)
      edx := pair (w 10) (w 11)
      ecx := pair (w 12) (w 13)
      eax := pair (w 14) (w 15) } := by
  have hget : ∀ id : Byte, id.toNat < 16 → ocdGetReg id m.ocd = w id.toNat := by
    intro id hid
    have haddr : ocdRegs id = Arch.regAddr (id.setWidth 4) := ocdRegs_eq id hid
    rw [ocdGetReg, haddr]
    refine (h (id.setWidth 4)).trans ?_
    rw [BitVec.toNat_setWidth, Nat.mod_eq_of_lt hid]
  have hpair : ∀ id : Byte, id.toNat < 15 →
      ocdGetReg32 id m.ocd = pair (w id.toNat) (w (id.toNat + 1)) := by
    intro id hid
    have hsucc : (id + 1).toNat = id.toNat + 1 := by
      rw [BitVec.toNat_add]
      exact Nat.mod_eq_of_lt (by simp; omega)
    rw [ocdGetReg32_pair, hget id (by omega), hget (id + 1) (by omega), hsucc]
  unfold svRead
  rw [hpair 0 (by decide), hpair 2 (by decide), hpair 4 (by decide), hpair 6 (by decide),
    hpair 8 (by decide), hpair 10 (by decide), hpair 12 (by decide), hpair 14 (by decide)]
  rfl

/-- The stack pointer goes back to the unit as it came. -/
theorem svRestore_reg {m : Machine} {lo hi : Word} (h : m.sv.regs.esp = pair lo hi + 12) :
    (svRestore m).ocd.reg 1 = 0xBC90 ∧ (svRestore m).ocd.reg 2 = lo ∧
    (svRestore m).ocd.reg 3 = hi := by
  have hesp : espBrk m.sv.regs.esp = pair lo hi := by
    rw [h]
    exact espBrk_espRun _
  refine ⟨rfl, ?_, ?_⟩
  · show ((espBrk m.sv.regs.esp).setWidth 16 : Word) = lo
    rw [hesp, pair_low]
  · show ((espBrk m.sv.regs.esp >>> 16).setWidth 16 : Word) = hi
    rw [hesp, pair_high]

/-- **A get-regs of a saved context** reports the sixteen words PUSHA has driven. -/
theorem regsReported {m : Machine} (h : m.sv.status = .brk32) : RegsReported m := by
  obtain ⟨τ, τ', w, hcap, hreg, -, heq⟩ := svGetRegs_eq m h
  have hregs := svRead_regs (m := m.waited ocdPrgmGetRegs τ) hreg
  generalize hm : svRead (m.waited ocdPrgmGetRegs τ) = m1 at heq hregs
  have hesp : m1.sv.regs.esp = pair (w 6) (w 7) + 12 := by rw [hregs]
  obtain ⟨h1, h2, h3⟩ := svRestore_reg hesp
  obtain ⟨-, -, hdriven⟩ := setReg_exits (svRestore m1).ocd (svRestore m1).bus
  rw [h1, h2, h3] at hdriven
  have hapi : machineApi.getRegs m = (0, (svRestore m1).waited ocdPrgmSetReg τ') :=
    Option.get_of_eq_some _ heq
  have hout : m1.out = m.out ++ [.run ocdPrgmGetRegs,
      .waited (ocdDriven m.bus (ocdRun ocdPrgmGetRegs m.ocd)) ((List.range 16).map w)] := by
    rw [← hm, ← hcap]
    rfl
  refine ⟨w, ocdDriven m.bus (ocdRun ocdPrgmGetRegs m.ocd),
    ocdCaptured (svRestore m1).bus (ocdRun ocdPrgmSetReg (svRestore m1).ocd), ?_, ?_⟩
  · show (machineApi.cbGetRegs m).2.out = _
    rw [SvApi.cbGetRegs, hapi]
    show m1.out ++ [.run ocdPrgmSetReg, .waited (ocdDriven (svRestore m1).bus
      (ocdRun ocdPrgmSetReg (svRestore m1).ocd)) _] = _
    rw [hdriven, hout, List.append_assoc]
    rfl
  · show (machineApi.cbGetRegs m).1 = _
    rw [SvApi.cbGetRegs, hapi]
    show SvRegs.bytes { m1.sv.regs with valid := 0 } = _
    rw [hregs]
    rfl

/-! ## 3. The session -/

section Session

variable {x : Context} {m : Machine}

/-- No command but stop and cont ends the session. -/
theorem saved_command (h : Saved x m) {c : Cmd} (hstop : c ≠ .stop) (hcont : c ≠ .cont) :
    Saved x (m.command c).2 := by
  cases c with
  | stop => exact absurd rfl hstop
  | cont => exact absurd rfl hcont
  | getVersion | echo | getStatus | getIoData | getIoAddr => exact h
  | setIoData data => exact ⟨h.status, h.eflags, h.cs, h.eip⟩
  | start =>
    have hst : svStart m = (1, m) := by
      rw [svStart, if_neg]
      rw [h.status]
      decide
    show Saved x (svStart m).2
    rw [hst]
    exact h
  | brk =>
    have hbrk : svBrk m = some (1, m) := by
      rw [svBrk, if_neg]
      rw [h.status]
      decide
    show Saved x ((svBrk m).get (svBrk_isSome m)).2
    rw [Option.get_of_eq_some _ hbrk]
    exact h
  | getRegs =>
    obtain ⟨τ, τ', w, -, -, -, heq⟩ := svGetRegs_eq m h.status
    show Saved x (machineApi.cbGetRegs m).2
    rw [SvApi.cbGetRegs, show machineApi.getRegs m = _ from Option.get_of_eq_some _ heq]
    exact ⟨h.status, h.eflags, h.cs, h.eip⟩

/-- The main loop leaves a saved context alone. -/
theorem saved_poll (h : Saved x m) : Saved x m.poll := by
  have hne : m.sv.status ≠ .running := by
    rw [h.status]
    decide
  unfold Machine.poll
  split
  · exact h
  · rw [Option.get_of_eq_some _ (svIobreak_other m hne)]
    exact h

/-- Turns of the main loop that handle the commands `cs`. -/
def Machine.turns (m : Machine) (cs : List Cmd) : Machine :=
  cs.foldl (fun m c => (m.command c).2.poll) m

theorem saved_turns (h : Saved x m) {cs : List Cmd} (hcs : ∀ c ∈ cs, c ≠ .stop ∧ c ≠ .cont) :
    Saved x (m.turns cs) := by
  induction cs generalizing m with
  | nil => exact h
  | cons c cs ih =>
    obtain ⟨hstop, hcont⟩ := hcs c List.mem_cons_self
    exact ih (saved_poll (saved_command h hstop hcont))
      fun c' hc' => hcs c' (List.mem_cons_of_mem c hc')

/-- **The cont of a saved context** drives the IRET frame the CPU has pushed. -/
theorem svCont_saved (h : Saved x m) : (svCont m).1 = 0 ∧ ∀ bus, ∃ w,
    ocdDriven bus (svCont m).2.ocd =
      [0x90CF, 0x9090, 0x9090, 0x9090, x.e0, x.e1, x.c, w, x.f0, x.f1] := by
  have hcont : svCont m =
      (0, ({ m with ocd := svContext m }.run ocdPrgmCont).setStatus .running) := by
    unfold svCont
    rw [h.status]
  rw [hcont]
  refine ⟨rfl, fun bus => ⟨m.ocd.reg 0, ?_⟩⟩
  rw [Machine.setStatus_ocd, Machine.run_ocd, cont_drives]
  have h5 : (svContext m).reg 5 = m.sv.regs.eip.setWidth 16 := rfl
  have h6 : (svContext m).reg 6 = (m.sv.regs.eip >>> 16).setWidth 16 := rfl
  have h4 : (svContext m).reg 4 = m.sv.regs.cs := rfl
  have h2 : (svContext m).reg 2 = m.sv.regs.eflags.setWidth 16 := rfl
  have h3 : (svContext m).reg 3 = (m.sv.regs.eflags >>> 16).setWidth 16 := rfl
  have h0 : (svContext m).reg 0 = m.ocd.reg 0 := rfl
  rw [h5, h6, h4, h0, h2, h3, h.eip, h.cs, h.eflags]
  simp only [pair_low, pair_high]

end Session

/-- **A protected-mode session gives the CPU back what it took.** -/
theorem session_returns {m m' : Machine} (hbrk : svBrk m = some (0, m'))
    (h32 : m'.sv.status = .brk32) :
    ∃ f0 f1 c e0 e1, ocdCaptured m.bus (ocdRun ocdPrgmBreak m.ocd) = [f0, f1, c, e0, e1] ∧
    ∀ cs : List Cmd, (∀ c ∈ cs, c ≠ .stop ∧ c ≠ .cont) →
      (∀ pre post, cs = pre ++ .getRegs :: post → RegsReported (m'.turns pre)) ∧
      (svCont (m'.turns cs)).1 = 0 ∧
      ∀ bus, ∃ w, ocdDriven bus (svCont (m'.turns cs)).2.ocd =
        [0x90CF, 0x9090, 0x9090, 0x9090, e0, e1, c, w, f0, f1] := by
  obtain ⟨x, hcap, hsaved⟩ := saved_brk hbrk h32
  refine ⟨x.f0, x.f1, x.c, x.e0, x.e1, hcap, fun cs hcs => ⟨fun pre post heq => ?_, ?_⟩⟩
  · have hpre := saved_turns hsaved fun c hc =>
      hcs c (heq ▸ List.mem_append_left _ hc)
    exact regsReported hpre.status
  · exact svCont_saved (saved_turns hsaved hcs)

/-- A supervisor whose CPU runs. -/
def runningMachine : Machine :=
  { (default : Machine) with sv := { (default : Sv) with status := .running } }

theorem session_returns_running : ∃ m', svBrk runningMachine = some (0, m') ∧
    RegsReported m' ∧ (svCont (m'.turns [.getRegs, .getStatus])).1 = 0 := by
  obtain ⟨τ, hb, heq⟩ := svBrk_eq runningMachine rfl
  obtain ⟨f0, f1, c, e0, e1, -, h⟩ := session_returns heq
    (svBroken_status (runningMachine.waited ocdPrgmBreak τ) hb)
  obtain ⟨hregs, hcont, -⟩ := h [.getRegs, .getStatus] (by decide)
  exact ⟨_, heq, hregs [] [.getStatus] rfl, hcont⟩

end LsePc.Supervisor
