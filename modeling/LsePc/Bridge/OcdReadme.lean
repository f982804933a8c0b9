/-
  File:      LsePc/Bridge/OcdReadme.lean
  Subject:   The documented instruction set of the OCD unit (README.md, "On-Chip Debug
             Unit") against one instruction of ocd.v.

  * `readmeWaits`, `readmeStored`, `readmeCmpr`, `readmePc`, `ReadmePins`: what the
    README says of each mnemonic but INT and READY. Nothing here is read off ocd.v;
  * `ReadmeEffect`, `ReadmeRun`: the effect of one instruction, and that ocd.v has it
    on a trace of the pins, however long it waits;
  * `ReadmeWhen`, `ocd_readme_iff`: exactly when it has. LDAL is right only where
    A23..A16 set no bit that A15..A0 leave clear, LDAH only where A23..A16 are low,
    and an LDI at address 255 takes R0 for its immediate.

  Of INT and READY only the registers and the next instruction are here, not the lines they drive.
  The README has INT stay in EXEC until INTA; ocd.v sets the line and goes on, and has no INTA.
-/
import LsePc.Bridge.OcdPipeline

namespace LsePc.Bridge

open LsePc.Lib

/-! ## 1. The documented effect -/

/-- The pins an instruction waits on: ADS# asserted, ADS# and LOCK# asserted, ADS# asserted
    with M/IO# low, HLDA. EXIT waits for ever. -/
def readmeWaits : Option Mnem → OcdIn → Bool
  | some .waitads, i => !(i.adsN == false)
  | some .waitlock, i => !(i.adsN == false && i.lockN == false)
  | some .waitio, i => !(i.adsN == false && i.mio == false)
  | some .hold, i => !i.hlda
  | some .exit, _ => true
  | _, _ => false

/-- The word an instruction writes to `R[d]`. -/
def readmeStored (σ : Arch) (i : OcdIn) : Option Mnem → Option Word
  | some .ldi => some (σ.prog (σ.pc + 1))
  | some .mov => some (σ.reg (s σ.instr))
  | some .clr => some 0
  | some .ldd => some i.din
  | some .ldwr => some (Arch.level i.wr)
  | some .lddc => some (Arch.level i.dc)
  | some .ldmio => some (Arch.level i.mio)
  | some .ldal => some (i.a.extractLsb' 0 16)
  | some .ldah => some ((i.a.extractLsb' 16 8).setWidth 16)
  | _ => none

def readmeCmpr (σ : Arch) : Option Mnem → Word
  | some .ldcmp => σ.reg (s σ.instr)
  | some .cmp => if σ.reg (s σ.instr) = σ.cmpr then 1 else 0
  | _ => σ.cmpr

/-- Where the program continues. -/
def readmePc (σ : Arch) : Option Mnem → BitVec 8
  | some .ldi => σ.pc + 1 + 1
  | some .ba => addr σ.instr
  | some .beq => if σ.cmpr ≠ 0 then addr σ.instr else σ.pc + 1
  | some .bne => if σ.cmpr = 0 then addr σ.instr else σ.pc + 1
  | _ => σ.pc + 1

/-- What an instruction does to the outputs of the unit. -/
def ReadmePins (σ σ' : Arch) : Option Mnem → Prop
  | some .std => σ'.dout = σ.reg (s σ.instr)
  | some .attach => σ'.en = true
  | some .detach => σ'.en = false
  | some .reset => σ'.reset = true
  | some .start => σ'.reset = false
  | some .nmi => σ'.nmi = true
  | some .hold => σ'.hold = true
  | some .waitads | some .waitlock | some .waitio => σ'.readyN = true ∧ σ'.en = true
  | _ => True

/-- **The README effect of the instruction at `pc`**, completed on the pins `i`. -/
structure ReadmeEffect (σ : Arch) (i : OcdIn) (σ' : Arch) : Prop where
  regs : ∀ r, σ'.reg r = match readmeStored σ i (mnem σ.instr) with
    | some v => if r = d σ.instr then v else σ.reg r
    | none => σ.reg r
  cmpr : σ'.cmpr = readmeCmpr σ (mnem σ.instr)
  pc : σ'.pc = readmePc σ (mnem σ.instr)
  pins : ReadmePins σ σ' (mnem σ.instr)
  prog : ∀ p, σ'.prog p = σ.prog p

/-- The unit in FETCH, the memory showing the word at `pc`; everything else is arbitrary. -/
def OcdSys.fetching (o : Ocd) (words : BitVec 9 → Word) : OcdSys where
  ocd := { o with state := .fetch, memWrite := false }
  mem := ⟨words, o.pc.setWidth 9⟩

/-- **ocd.v executes the instruction at `pc` as the README says**: EXEC starts in clock 2;
    while the wait condition holds the unit stays there with its data registers and `cmpr`
    as they were, and five clocks later, plus the waits, it fetches again with the effect. -/
structure ReadmeRun (x : OcdSys) (inp : Nat → OcdIn) : Prop where
  waits : ∀ k, (∀ j < k, readmeWaits (mnem x.arch.instr) (inp (2 + j)) = true) →
    (x.run inp (2 + k)).ocd.state = .exec ∧
    (∀ r, (x.run inp (2 + k)).arch.reg r = x.arch.reg r) ∧
    (x.run inp (2 + k)).ocd.cmpr = x.ocd.cmpr ∧
    (mnem x.arch.instr = some .hold → 0 < k → (x.run inp (2 + k)).ocd.hold = true) ∧
    (mnem x.arch.instr = some .exit → 0 < k → (x.run inp (2 + k)).ocd.stop = true)
  completes : ∀ k, (∀ j < k, readmeWaits (mnem x.arch.instr) (inp (2 + j)) = true) →
    readmeWaits (mnem x.arch.instr) (inp (2 + k)) = false →
    (x.run inp (5 + k)).ocd.state = .fetch ∧
    ReadmeEffect x.arch (inp (2 + k)) (x.run inp (5 + k)).arch

/-- When ocd.v and the README agree on the instruction at `pc`. -/
def ReadmeWhen (σ : Arch) (i : OcdIn) : Option Mnem → Prop
  | some .ldal => i.a.extractLsb' 0 16 ||| (i.a.extractLsb' 16 8).setWidth 16 =
      i.a.extractLsb' 0 16
  | some .ldah => i.a.extractLsb' 16 8 = 0
  | some .ldi => σ.pc = 255 → σ.reg 0 = σ.prog 0
  | _ => True

/-! ## 2. One instruction of ocd.v -/

theorem execWait_readme (w : Word) (i : OcdIn) : execWait w i = readmeWaits (mnem w) i := by
  simp only [execWait, wires]
  cases mnem w with
  | none => rfl
  | some m => cases m <;> simp [readmeWaits]

/-- Two states with the same memory, `pc` and `cmpr`: the pins may differ. -/
structure SameData (τ σ : Arch) : Prop where
  words : τ.words = σ.words
  pc : τ.pc = σ.pc
  cmpr : τ.cmpr = σ.cmpr

theorem SameData.instr {τ σ : Arch} (h : SameData τ σ) : τ.instr = σ.instr := by
  unfold Arch.instr Arch.prog
  rw [h.words, h.pc]

theorem SameData.reg {τ σ : Arch} (h : SameData τ σ) (r : BitVec 4) : τ.reg r = σ.reg r := by
  unfold Arch.reg
  rw [h.words]

theorem SameData.operand {τ σ : Arch} (h : SameData τ σ) : τ.operand = σ.operand := by
  unfold Arch.operand Arch.srcAddr
  rw [h.instr, h.words, h.pc]

/-- A clock of waiting moves pins only. -/
theorem step_wait_same (σ : Arch) (i : OcdIn) (hw : readmeWaits (mnem σ.instr) i = true) :
    SameData (σ.step i) σ := by
  unfold Arch.step
  cases hm : mnem σ.instr with
  | none => simp [hm, readmeWaits] at hw
  | some m =>
    cases m <;> simp [hm, readmeWaits] at hw <;> simp [Arch.exec, Arch.ack, hw] <;>
      exact ⟨rfl, rfl, rfl⟩

/-- `n` clocks of waiting: the unit is in EXEC, the data as they were. -/
theorem run_wait {x : OcdSys} (h : AtFetch x) (inp : Nat → OcdIn) : ∀ k,
    (∀ j < k, readmeWaits (mnem x.arch.instr) (inp (2 + j)) = true) →
    AtExec (x.run inp (2 + k)) ∧ SameData (x.run inp (2 + k)).arch x.arch ∧
    (0 < k → ∃ τ, SameData τ x.arch ∧ (x.run inp (2 + k)).arch = τ.step (inp (2 + (k - 1)))) := by
  intro k
  induction k with
  | zero =>
    intro _
    obtain ⟨h1, a1⟩ := atFetch_clk h (inp 0)
    obtain ⟨h2, a2⟩ := atLoad_clk h1 (inp 1)
    have ha : (x.run inp 2).arch = x.arch := a2.trans a1
    exact ⟨h2, by rw [ha]; exact ⟨rfl, rfl, rfl⟩, fun hk => absurd hk (lt_irrefl 0)⟩
  | succ k ih =>
    intro hwait
    obtain ⟨hx, hs, _⟩ := ih fun j hj => hwait j (Nat.lt_succ_of_lt hj)
    have hw := hwait k (Nat.lt_succ_self k)
    rw [← hs.instr] at hw
    obtain ⟨hx', ha⟩ := atExec_wait hx (inp (2 + k)) (by rw [execWait_readme]; exact hw)
    have hsame := step_wait_same _ _ hw
    refine ⟨hx', ?_, fun _ => ⟨_, hs, ha⟩⟩
    show SameData ((x.run inp (2 + k)).clk (inp (2 + k))).arch x.arch
    rw [ha]
    exact ⟨hsame.words.trans hs.words, hsame.pc.trans hs.pc, hsame.cmpr.trans hs.cmpr⟩

/-- A registers-only view of what one step stores. -/
theorem step_reg_eq (σ : Arch) (i : OcdIn) (r : BitVec 4) :
    (σ.step i).reg r = match σ.stored i (mnem σ.instr) with
      | some v => if r = d σ.instr then v else σ.reg r
      | none => σ.reg r := by
  cases hv : σ.stored i (mnem σ.instr) with
  | none => exact σ.step_reg i r (Or.inl hv)
  | some v =>
    by_cases hr : r = d σ.instr
    · subst hr
      simp only [if_true]
      unfold Arch.reg
      rw [Arch.step_words, hv]
      exact σ.setReg_reg_self _ v
    · simp only [if_neg hr]
      exact σ.step_reg i r (Or.inr hr)

theorem setWidth_eq_low (a : BitVec 24) : a.setWidth 16 = a.extractLsb' 0 16 := by
  ext j hj
  simp

theorem shift_eq_high (a : BitVec 24) :
    (a >>> 16).setWidth 16 = (a.extractLsb' 16 8).setWidth 16 := by
  ext j hj
  simp only [BitVec.getElem_setWidth, BitVec.getLsbD_ushiftRight, BitVec.getLsbD_extractLsb']
  by_cases h8 : j < 8
  · simp [h8]
  · simp [h8, BitVec.getLsbD_of_ge a (16 + j) (by omega)]

/-- **The stored word is the documented one exactly where `ReadmeWhen` says.** -/
theorem stored_readme_iff {τ σ : Arch} (h : SameData τ σ) (i : OcdIn) :
    τ.stored i (mnem σ.instr) = readmeStored σ i (mnem σ.instr) ↔
      ReadmeWhen σ i (mnem σ.instr) := by
  have hop : ∀ m, mnem σ.instr = some m → τ.operand =
      if m = .ldi then σ.words (σ.pc.setWidth 9 + 1) else σ.reg (s σ.instr) := by
    intro m hm
    rw [h.operand, Arch.operand, Arch.srcAddr, mnem_eq_some.mp hm]
    by_cases hl : m = .ldi
    · rw [if_pos hl, if_pos (by rw [hl]; rfl)]
    · rw [if_neg hl, if_neg fun e => hl (Mnem.code_inj (e.trans rfl : m.code = Mnem.ldi.code))]
      rfl
  cases hm : mnem σ.instr with
  | none => simp [Arch.stored, readmeStored, ReadmeWhen]
  | some m =>
    cases m <;> simp only [Arch.stored, readmeStored, ReadmeWhen, Option.some.injEq, hop _ hm]
    case ldi =>
      -- the word after an LDI is a program word unless the LDI sits at 255
      rw [if_pos trivial]
      by_cases hpc : σ.pc = 255
      · have h256 : σ.words (σ.pc.setWidth 9 + 1) = σ.reg 0 := by rw [hpc]; rfl
        have h0 : σ.prog (σ.pc + 1) = σ.prog 0 := by rw [hpc]; rfl
        rw [h256, h0]
        exact ⟨fun e _ => e, fun e => e hpc⟩
      · rw [setWidth_succ hpc]
        exact iff_of_true rfl fun e => absurd e hpc
    case ldal => rw [setWidth_eq_low, shift_eq_high]
    case ldah =>
      constructor
      · intro e
        have hcut := congrArg (fun y : Word => y.setWidth 8) e
        simpa using hcut.symm
      · intro e
        rw [e]
        rfl
    all_goals exact iff_true_intro rfl

/-- The registers after a step are the documented ones exactly where `ReadmeWhen` says. -/
theorem regs_readme_iff {τ σ : Arch} (h : SameData τ σ) (i : OcdIn) :
    (∀ r, (τ.step i).reg r = match readmeStored σ i (mnem σ.instr) with
      | some v => if r = d σ.instr then v else σ.reg r
      | none => σ.reg r) ↔ ReadmeWhen σ i (mnem σ.instr) := by
  rw [← stored_readme_iff h i]
  simp only [step_reg_eq, h.instr, h.reg]
  have hsome : (τ.stored i (mnem σ.instr)).isSome = (readmeStored σ i (mnem σ.instr)).isSome := by
    cases mnem σ.instr with
    | none => rfl
    | some m => cases m <;> rfl
  cases hv : τ.stored i (mnem σ.instr) with
  | none =>
    rw [hv] at hsome
    cases hv' : readmeStored σ i (mnem σ.instr) with
    | none => simp
    | some v' => rw [hv'] at hsome; cases hsome
  | some v =>
    rw [hv] at hsome
    cases hv' : readmeStored σ i (mnem σ.instr) with
    | none => rw [hv'] at hsome; cases hsome
    | some v' =>
      constructor
      · intro e
        have hd := e (d σ.instr)
        simp only [if_true] at hd
        rw [hd]
      · intro e r
        rw [Option.some.inj e]

/-- Everything but the registers is documented for every instruction that completes. -/
theorem step_readme {τ σ : Arch} (h : SameData τ σ) (i : OcdIn)
    (hw : readmeWaits (mnem σ.instr) i = false) :
    (τ.step i).cmpr = readmeCmpr σ (mnem σ.instr) ∧
    (τ.step i).pc = readmePc σ (mnem σ.instr) ∧
    ReadmePins σ (τ.step i) (mnem σ.instr) := by
  have hop : mnem σ.instr ≠ some .ldi → τ.operand = σ.reg (s σ.instr) := by
    intro hne
    rw [h.operand, Arch.operand, Arch.srcAddr,
      if_neg fun e => hne (mnem_eq_some.mpr (e.trans rfl : op σ.instr = Mnem.ldi.code))]
    rfl
  unfold Arch.step
  rw [h.instr]
  cases hm : mnem σ.instr with
  | none => exact ⟨h.cmpr, by rw [Arch.exec, Arch.next_pc, h.pc]; rfl, trivial⟩
  | some m =>
    rw [hm] at hop hw
    by_cases hz : σ.cmpr = 0#16 <;> cases m <;> simp [readmeWaits] at hw <;>
      simp [Arch.exec, Arch.next, Arch.ack, Arch.caught, Arch.goto, Arch.setReg, readmeCmpr,
        readmePc, ReadmePins, h.pc, h.cmpr, hw, hop, hz]

/-- **One completed instruction has the README effect exactly where `ReadmeWhen` says.** -/
theorem effect_readme_iff {τ σ : Arch} (h : SameData τ σ) (i : OcdIn)
    (hw : readmeWaits (mnem σ.instr) i = false) :
    ReadmeEffect σ i (τ.step i) ↔ ReadmeWhen σ i (mnem σ.instr) := by
  obtain ⟨hc, hp, ho⟩ := step_readme h i hw
  constructor
  · exact fun e => (regs_readme_iff h i).mp e.regs
  · refine fun e => ⟨(regs_readme_iff h i).mpr e, hc, hp, ho, fun p => ?_⟩
    rw [Arch.step_prog]
    unfold Arch.prog
    rw [h.words]

/-- The instructions on which ocd.v and the README differ do not wait. -/
theorem readmeWhen_of_waits {σ : Arch} {m : Option Mnem} {i : OcdIn} (j : OcdIn)
    (hw : readmeWaits m i = true) : ReadmeWhen σ j m := by
  cases m with
  | none => trivial
  | some m => cases m <;> trivial

/-- After a wait and the two edges that follow it the unit fetches the next instruction. -/
theorem run_completes {x : OcdSys} (h : AtFetch x) (inp : Nat → OcdIn) (k : Nat)
    (hwait : ∀ j < k, readmeWaits (mnem x.arch.instr) (inp (2 + j)) = true)
    (hgo : readmeWaits (mnem x.arch.instr) (inp (2 + k)) = false) :
    AtFetch (x.run inp (5 + k)) ∧
    (x.run inp (5 + k)).arch = (x.run inp (2 + k)).arch.step (inp (2 + k)) := by
  obtain ⟨hx, hs, _⟩ := run_wait h inp k hwait
  have hw : execWait (x.run inp (2 + k)).arch.instr (inp (2 + k)) = false := by
    rw [execWait_readme, hs.instr]
    exact hgo
  obtain ⟨h4, a4⟩ := atExec_done hx (inp (2 + k)) (inp (2 + k + 1)) hw
  obtain ⟨h5, a5⟩ := atStoreFetch_clk h4 (inp (2 + k + 2))
  have hidx : 5 + k = 2 + k + 3 := by omega
  rw [hidx]
  exact ⟨h5, a5.trans a4⟩

/-- **ocd.v implements the README's instruction set exactly where `ReadmeWhen` says**: for
    every program memory, register file, `cmpr` and remaining registers (`o`, `words`) and
    every trace of the pins, the instruction at `pc` runs as documented if and only if the
    address bus in its EXEC clock and its own address meet the condition. -/
theorem ocd_readme_iff (o : Ocd) (words : BitVec 9 → Word) (inp : Nat → OcdIn) :
    ReadmeRun (.fetching o words) inp ↔
      ReadmeWhen (OcdSys.fetching o words).arch (inp 2)
        (mnem (OcdSys.fetching o words).arch.instr) := by
  have hf : AtFetch (.fetching o words) := ⟨rfl, rfl, rfl⟩
  generalize OcdSys.fetching o words = x at hf ⊢
  constructor
  · intro h
    cases hw : readmeWaits (mnem x.arch.instr) (inp 2) with
    | true => exact readmeWhen_of_waits _ hw
    | false =>
      have hwait : ∀ j < 0, readmeWaits (mnem x.arch.instr) (inp (2 + j)) = true :=
        fun j hj => absurd hj (Nat.not_lt_zero j)
      have heff := (h.completes 0 hwait hw).2
      rw [(run_completes hf inp 0 hwait hw).2] at heff
      exact (effect_readme_iff (run_wait hf inp 0 hwait).2.1 _ hw).mp heff
  · intro h
    refine ⟨fun k hwait => ?_, fun k hwait hgo => ?_⟩
    · obtain ⟨hx, hs, hlast⟩ := run_wait hf inp k hwait
      refine ⟨hx.state, hs.reg, hs.cmpr, fun hm hk => ?_, fun hm hk => ?_⟩
      · obtain ⟨τ, hτ, ha⟩ := hlast hk
        show (x.run inp (2 + k)).arch.hold = true
        rw [ha, Arch.step, hτ.instr, hm]
        simp only [Arch.exec]
        split <;> rfl
      · obtain ⟨τ, hτ, ha⟩ := hlast hk
        show (x.run inp (2 + k)).arch.stop = true
        rw [ha, Arch.step, hτ.instr, hm]
        rfl
    · obtain ⟨h5, ha⟩ := run_completes hf inp k hwait hgo
      refine ⟨h5.state, ?_⟩
      rw [ha, effect_readme_iff (run_wait hf inp k hwait).2.1 _ hgo]
      cases k with
      | zero => exact h
      | succ k => exact readmeWhen_of_waits _ (hwait 0 (Nat.succ_pos k))

/-- `LDAL R1` above the first 64 KiB of the address space: R1 is 1 where A15..A0 are 0. -/
theorem readme_ldal_high : ¬ ReadmeRun (.fetching default fun _ => 0x2201)
    fun _ => { (default : OcdIn) with a := 0x010000 } := by
  intro h
  have hreg := (h.completes 0 (fun j hj => absurd hj (Nat.not_lt_zero j)) (by decide)).2.regs 1
  revert hreg
  decide

end LsePc.Bridge
