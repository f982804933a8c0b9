/-
  File:      LsePc/Supervisor/Ocd.lean
  Subject:   What the supervisor knows of the OCD unit: ocd.c and the routines of
             ocd_prgm.h.

  The memory of the unit appears to the supervisor at 0x6000: 512 little-endian words,
  the upper half of them OCD_REGS.

  * `ocdPrgmReset` ... `ocdPrgmStart`: the assembled routines, byte for byte;
  * `ocdRun`, `ocdBusywait`, `ocdGetReg`, `ocdSetReg` and the 32-bit pair: ocd.c on the
    architectural state of the unit;
  * `OcdSys.load`: `ocd_run` on the clocked unit; `load_run` connects the two;
  * `routine_exits`: a straight-line routine is what its symbolic execution says.
-/
import LsePc.Bridge.OcdSymbolic

namespace LsePc.Supervisor

open LsePc.Bridge

abbrev Byte := BitVec 8

/-! ## 1. ocd_prgm.h -/

def ocdPrgmReset : List Byte :=
  [0x00, 0x41, 0x00, 0x02, 0x00, 0x00]

def ocdPrgmWriteIo : List Byte :=
  [0x30, 0x34, 0x00, 0x03, 0x00, 0x49, 0x01, 0x22, 0x02, 0x25, 0x00, 0x00]

def ocdPrgmReadIo : List Byte :=
  [0x03, 0x24, 0x00, 0x00]

def ocdPrgmCont : List Byte :=
  [0x01, 0x20, 0xcf, 0x90, 0x07, 0x20, 0x90, 0x90, 0x00, 0x42, 0x10, 0x34, 0x00, 0x42,
   0x70, 0x34, 0x00, 0x42, 0x70, 0x34, 0x00, 0x42, 0x70, 0x34, 0x00, 0x42, 0x50, 0x34,
   0x00, 0x42, 0x60, 0x34, 0x00, 0x42, 0x40, 0x34, 0x00, 0x42, 0x00, 0x34, 0x00, 0x42,
   0x20, 0x34, 0x00, 0x42, 0x30, 0x34, 0x00, 0x03, 0x00, 0x49, 0x01, 0x22, 0x02, 0x25,
   0x00, 0x00]

def ocdPrgmBreak : List Byte :=
  [0x00, 0x45, 0x00, 0x48, 0x02, 0x22, 0x03, 0x23, 0x20, 0x28, 0x01, 0x20, 0x08, 0x00,
   0x10, 0x60, 0x0b, 0x71, 0x30, 0x28, 0x43, 0x71, 0x01, 0x20, 0x00, 0x8e, 0x10, 0x34,
   0x00, 0x42, 0x01, 0x20, 0x0d, 0x00, 0x10, 0x34, 0x00, 0x42, 0x01, 0x20, 0x00, 0x00,
   0x10, 0x34, 0x00, 0x42, 0x01, 0x20, 0x08, 0x00, 0x10, 0x34, 0x00, 0x42, 0x01, 0x20,
   0x00, 0x9a, 0x10, 0x34, 0x00, 0x42, 0x01, 0x20, 0xcf, 0x00, 0x10, 0x34, 0x00, 0x42,
   0x01, 0x20, 0xff, 0xff, 0x10, 0x34, 0x00, 0x42, 0x01, 0x20, 0x00, 0x00, 0x10, 0x34,
   0x00, 0x42, 0x00, 0x43, 0x00, 0x42, 0x01, 0x20, 0x90, 0x90, 0x10, 0x34, 0x00, 0x42,
   0x02, 0x24, 0x00, 0x43, 0x00, 0x42, 0x03, 0x24, 0x00, 0x43, 0x00, 0x42, 0x04, 0x24,
   0x00, 0x43, 0x00, 0x42, 0x05, 0x24, 0x00, 0x43, 0x00, 0x42, 0x06, 0x24, 0x00, 0x43,
   0x01, 0x20, 0x01, 0x00, 0x00, 0x46, 0x00, 0x00, 0x01, 0x20, 0x00, 0x00, 0x10, 0x34,
   0x00, 0x42, 0x01, 0x20, 0x00, 0xd0, 0x10, 0x34, 0x01, 0x29, 0x00, 0x46, 0x00, 0x00]

def ocdPrgmGetRegs : List Byte :=
  [0x01, 0x20, 0x60, 0x90, 0x02, 0x20, 0x90, 0x90, 0x00, 0x42, 0x10, 0x34, 0x00, 0x42,
   0x20, 0x34, 0x00, 0x42, 0x20, 0x34, 0x00, 0x42, 0x20, 0x34, 0x00, 0x42, 0x20, 0x34,
   0x00, 0x42, 0x00, 0x24, 0x00, 0x43, 0x00, 0x42, 0x01, 0x24, 0x00, 0x43, 0x00, 0x42,
   0x02, 0x24, 0x00, 0x43, 0x00, 0x42, 0x03, 0x24, 0x00, 0x43, 0x00, 0x42, 0x04, 0x24,
   0x00, 0x43, 0x00, 0x42, 0x05, 0x24, 0x00, 0x43, 0x00, 0x42, 0x06, 0x24, 0x00, 0x43,
   0x00, 0x42, 0x07, 0x24, 0x00, 0x43, 0x00, 0x42, 0x08, 0x24, 0x00, 0x43, 0x00, 0x42,
   0x09, 0x24, 0x00, 0x43, 0x00, 0x42, 0x0a, 0x24, 0x00, 0x43, 0x00, 0x42, 0x0b, 0x24,
   0x00, 0x43, 0x00, 0x42, 0x0c, 0x24, 0x00, 0x43, 0x00, 0x42, 0x0d, 0x24, 0x00, 0x43,
   0x00, 0x42, 0x0e, 0x24, 0x00, 0x43, 0x00, 0x42, 0x0f, 0x24, 0x00, 0x43, 0x00, 0x46,
   0x00, 0x00]

def ocdPrgmSetReg : List Byte :=
  [0x04, 0x20, 0x90, 0x90, 0x00, 0x42, 0x10, 0x34, 0x00, 0x42, 0x20, 0x34, 0x00, 0x42,
   0x30, 0x34, 0x00, 0x42, 0x40, 0x34, 0x00, 0x42, 0x40, 0x34, 0x00, 0x46, 0x00, 0x00]

def ocdPrgmStart : List Byte :=
  [0x00, 0x40, 0x00, 0x03, 0x00, 0x49, 0x01, 0x22, 0x02, 0x25, 0x00, 0x00]

/-! ## 2. ocd.c -/

def ocdMemSize : Nat := 1024

/-- The words of the unit after `memcpy` has put the bytes `prog` at OCD_MEM. -/
def memcpy (words : BitVec 9 → Word) (prog : List Byte) : BitVec 9 → Word := fun a =>
  match prog[2 * a.toNat]?, prog[2 * a.toNat + 1]? with
  | some lo, some hi => hi ++ lo
  | some lo, none => (words a).extractLsb' 8 8 ++ lo
  | none, _ => words a

/-- OCD_REGS is at byte 0x200 of the memory: word 0x100. -/
def ocdRegs (id : Byte) : BitVec 9 := 0x100 + id.setWidth 9

def ocdSetReg (id : Byte) (value : Word) (σ : Arch) : Arch :=
  { σ with words := Function.update σ.words (ocdRegs id) value }

def ocdSetReg32 (id : Byte) (value : BitVec 32) (σ : Arch) : Arch :=
  ocdSetReg (id + 1) ((value >>> 16).setWidth 16) (ocdSetReg id (value.setWidth 16) σ)

def ocdGetReg (id : Byte) (σ : Arch) : Word := σ.words (ocdRegs id)

def ocdGetReg32 (id : Byte) (σ : Arch) : BitVec 32 :=
  (ocdGetReg id σ).setWidth 32 ||| ((ocdGetReg (id + 1) σ).setWidth 32 <<< 16)

/-- `ocd_run`: the unit is reset, filled and released. -/
def ocdRun (prog : List Byte) (σ : Arch) : Arch :=
  if prog.length > ocdMemSize then σ
  else { σ.boot with words := memcpy σ.words prog }

def ocdIsrunning (σ : Arch) : Bool := !σ.stop

/-- No routine is longer than the program memory, and none has a loop. -/
def ocdBound : Nat := 258

/-- `ocd_busywait`: the loop is left when the unit has come to EXIT. -/
def ocdBusywait (bus : Nat → OcdIn) (σ : Arch) : Option Arch := σ.toExit bus ocdBound

theorem ocdBusywait_stops {bus : Nat → OcdIn} {σ τ : Arch} (h : ocdBusywait bus σ = some τ) :
    ocdIsrunning τ = false := by
  rw [ocdIsrunning, Arch.toExit_stop h]
  rfl

/-- The words the routine at `pc` puts on the data bus until its EXIT. -/
def ocdDriven (bus : Nat → OcdIn) (σ : Arch) : List Word := σ.driven bus ocdBound

/-- The words it takes from the data bus until its EXIT. -/
def ocdCaptured (bus : Nat → OcdIn) (σ : Arch) : List Word := σ.captured bus ocdBound

/-! ### On the clocked unit -/

/-- `ocd_run` on the clocked unit: `rst` held while the memory is filled, then released. -/
def load (prog : List Byte) (x : OcdSys) : OcdSys :=
  ⟨resetOcd x.ocd, { x.mem with words := memcpy x.mem.words prog }⟩

theorem load_inPhase {prog : List Byte} (hp : prog.length ≤ ocdMemSize) (x : OcdSys) :
    InPhase (load prog x) (ocdRun prog x.arch) := by
  rw [ocdRun, if_neg (Nat.not_lt.mpr hp)]
  exact inPhase_reset x.ocd { x.mem with words := memcpy x.mem.words prog }

/-- The first clock after the release commits nothing. -/
theorem load_clk {prog : List Byte} (hp : prog.length ≤ ocdMemSize) (x : OcdSys)
    (inp : Nat → OcdIn) : AtStoreFetch ((load prog x).run inp 1) ∧
      ((load prog x).run inp 1).arch = ocdRun prog x.arch := by
  cases load_inPhase hp x with
  | store _ h => exact h (inp 0)
  | fetch h _ => exact OcdState.noConfusion h.state
  | load h _ => exact OcdState.noConfusion h.state
  | exec h _ => exact OcdState.noConfusion h.state
  | storeFetch h _ => exact OcdState.noConfusion h.state

/-- The released unit fetches word 0 in its second clock. -/
theorem load_run {prog : List Byte} (hp : prog.length ≤ ocdMemSize) (x : OcdSys)
    (inp : Nat → OcdIn) :
    AtFetch ((load prog x).run inp 2) ∧ ((load prog x).run inp 2).arch = ocdRun prog x.arch := by
  obtain ⟨h1, a1⟩ := load_clk hp x inp
  obtain ⟨h2, a2⟩ := atStoreFetch_clk h1 (inp 1)
  exact ⟨h2, a2.trans a1⟩

/-! ## 3. Routines as words -/

/-- Little-endian words. -/
def toWords : List Byte → List Word
  | lo :: hi :: bs => (hi ++ lo) :: toWords bs
  | _ => []

theorem getElem?_toWords {bs : List Byte} {k : Nat} {w : Word} (h : (toWords bs)[k]? = some w) :
    ∃ lo hi, bs[2 * k]? = some lo ∧ bs[2 * k + 1]? = some hi ∧ w = hi ++ lo := by
  induction bs using toWords.induct generalizing k with
  | case1 lo hi bs ih =>
    cases k with
    | zero => exact ⟨lo, hi, rfl, rfl, (Option.some.inj h).symm⟩
    | succ k => exact ih h
  | case2 bs hne =>
    rw [toWords] at h
    · cases h
    · exact hne

theorem length_toWords (bs : List Byte) : (toWords bs).length = bs.length / 2 := by
  induction bs using toWords.induct with
  | case1 lo hi bs ih =>
    rw [toWords, List.length_cons, ih, List.length_cons, List.length_cons]
    omega
  | case2 bs hne =>
    rw [toWords]
    · obtain _ | ⟨b, _ | ⟨c, bs⟩⟩ := bs
      · rfl
      · simp
      · exact absurd rfl (hne b c bs)
    · exact hne

section Routine

variable {prog : List Byte}

/-- After `ocd_run` the program memory holds the words of the routine. -/
theorem loaded_ocdRun (hp : prog.length ≤ 512) (σ : Arch) :
    Loaded (ocdRun prog σ) (toWords prog) := by
  intro k w hw
  have hk : k < prog.length / 2 := by
    rw [← length_toWords]
    exact (List.getElem?_eq_some_iff.mp hw).1
  obtain ⟨lo, hi, hlo, hhi, rfl⟩ := getElem?_toWords hw
  have hmod : ((BitVec.ofNat 8 k).setWidth 9).toNat = k := by
    simp only [BitVec.toNat_setWidth, BitVec.toNat_ofNat]
    omega
  unfold ocdRun ocdMemSize
  rw [if_neg (by omega)]
  simp only [Arch.prog, memcpy, hmod, hlo, hhi]

/-- A routine of at most 256 words leaves OCD_REGS alone. -/
theorem ocdRun_reg (hp : prog.length ≤ 512) (σ : Arch) (r : BitVec 4) :
    (ocdRun prog σ).reg r = σ.reg r := by
  have hr : 256 ≤ (Arch.regAddr r).toNat := by
    revert r
    decide
  have hnone : prog[2 * (Arch.regAddr r).toNat]? = none := List.getElem?_eq_none (by omega)
  unfold ocdRun ocdMemSize
  rw [if_neg (by omega)]
  simp only [Arch.reg, memcpy, hnone]

theorem ocdRun_boot (hp : prog.length ≤ ocdMemSize) (σ : Arch) :
    (ocdRun prog σ).pc = 0 ∧ (ocdRun prog σ).stop = false := by
  rw [ocdRun, if_neg (Nat.not_lt.mpr hp)]
  exact ⟨rfl, rfl⟩

theorem ocdRun_prog_le (hp : prog.length ≤ 512) : prog.length ≤ ocdMemSize :=
  Nat.le_trans hp (by decide)

/-- What `ocd_busywait` returns with, and what has passed over the data bus by then, for
    a routine the unit has carried out from `σ` to `τ` as `t` says. -/
structure RoutineDone (bus : Nat → OcdIn) (σ τ : Arch) (t : SymState) : Prop where
  exits : ocdBusywait bus σ = some τ
  reg : ∀ r, τ.reg r = (t.regs r).eval σ bus
  driven : ocdDriven bus σ = t.out.map (Sym.eval σ bus)
  captured : ocdCaptured bus σ = t.taken.map (Sym.eval σ bus)

/-- The end of a routine, from any symbolic state of it that has come to EXIT. -/
theorem symRep_done {σ : Arch} (hs : σ.stop = false) {bus : Nat → OcdIn} {t : SymState}
    (h : SymRep σ bus t) (hload : Loaded σ (toWords prog))
    (hexit : (toWords prog)[t.pc]?.map mnem = some (some .exit)) (hk : t.k ≤ 256) :
    mnem (σ.finishes bus t.k).instr = some .exit ∧
    RoutineDone bus σ (σ.finishes bus t.k).halt t := by
  have hinstr := symRep_instr hload h hexit
  obtain ⟨c, hc⟩ := Nat.exists_eq_add_of_le (show t.k ≤ ocdBound by unfold ocdBound; omega)
  obtain ⟨hd, hcap⟩ := Arch.driven_exit hinstr c
  refine ⟨hinstr, ⟨?_, h.regs, ?_, ?_⟩⟩
  · exact Arch.toExit_eq hs h.noExit hinstr (by unfold ocdBound; omega)
  · rw [ocdDriven, hc, hd, h.out]
  · rw [ocdCaptured, hc, hcap, h.taken]

/-- The symbolic execution of a loaded routine from its first word. -/
theorem symRep_ocdRun (hp : prog.length ≤ 512) {n : Nat} {t : SymState}
    (hsym : symSteps (toWords prog) n .start = some t) (σ : Arch) (bus : Nat → OcdIn) :
    t.k = n ∧ SymRep (ocdRun prog σ) bus t := by
  have hlen : (toWords prog).length ≤ 256 := by
    rw [length_toWords]
    omega
  have hpc := (ocdRun_boot (ocdRun_prog_le hp) σ).1
  obtain ⟨hk, hrep⟩ := symSteps_sound (loaded_ocdRun hp σ) hlen (SymRep.start hpc bus) hsym
  exact ⟨hk.trans (Nat.zero_add n), hrep⟩

/-- **A straight-line routine is what its symbolic execution says**, on every bus. -/
theorem routine_done (hp : prog.length ≤ 512) {n : Nat} {t : SymState}
    (hsym : symSteps (toWords prog) n .start = some t)
    (hexit : (toWords prog)[t.pc]?.map mnem = some (some .exit)) (hn : n ≤ 256) (σ : Arch)
    (bus : Nat → OcdIn) : ∃ τ, RoutineDone bus (ocdRun prog σ) τ t := by
  obtain ⟨hk, hrep⟩ := symRep_ocdRun hp hsym σ bus
  have hs := (ocdRun_boot (ocdRun_prog_le hp) σ).2
  exact ⟨_, (symRep_done hs hrep (loaded_ocdRun hp σ) hexit (by omega)).2⟩

/-- **On the clocked unit** a routine that comes to EXIT on every bus does so where its
    waits end, in a state `ocd_busywait` returns with. -/
theorem load_exits (hp : prog.length ≤ 512) {x : OcdSys} {inp : Nat → OcdIn}
    (hl : WaitsEnd (load prog x) inp)
    (hall : ∀ bus, ∃ n < 256, mnem ((ocdRun prog x.arch).finishes bus n).instr = some .exit) :
    ∃ bus T, ∀ t ≥ T,
      ocdBusywait bus (ocdRun prog x.arch) = some ((load prog x).run inp t).arch := by
  obtain ⟨hf, ha⟩ := load_run (ocdRun_prog_le hp) x inp
  have hs : ((load prog x).run inp 2).arch.stop = false := by
    rw [ha]
    exact (ocdRun_boot (ocdRun_prog_le hp) x.arch).2
  rw [← ha] at hall ⊢
  obtain ⟨go, m, hm, hgo, hne, hex⟩ := run_exits hf (hl.shift 2) hall
  refine ⟨fun k => inp (2 + go k), 2 + (fetchClock go m + 3), fun t ht => ?_⟩
  obtain ⟨c, rfl⟩ := Nat.exists_eq_add_of_le (show 2 ≤ t by omega)
  have hexit := hgo.exit hs hne hex (show m + 2 ≤ ocdBound by unfold ocdBound; omega)
    (show fetchClock go m + 3 ≤ c by omega)
  rw [← OcdSys.run_add] at hexit
  exact hexit

end Routine

end LsePc.Supervisor
