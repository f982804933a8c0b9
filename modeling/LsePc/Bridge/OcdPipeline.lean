/-
  File:      LsePc/Bridge/OcdPipeline.lean
  Subject:   The five-state unit on its synchronous memory refines the machine of
             OcdIsa.lean that executes one instruction at a time.

  * `OcdSys.arch`: the architectural state a clock-level state shows;
  * `AtFetch`, `AtLoad`, `AtExec`, `AtStore`, `AtStoreFetch`: what the internal
    registers and the memory port hold in each state. The two clocks between an
    address and its word are the reason for five of them;
  * `atFetch_clk` ... `atStoreFetch_clk`: one edge from each;
  * `InPhase`, `inPhase_clk`, `inPhase_run`: the invariant of a run: the shown
    state is what the EXEC clocks so far have made of the start;
  * `PipelineOk`, `ocd_pipeline`: the clock-level statement of a whole run.
-/
import LsePc.Bridge.OcdIsa

namespace LsePc.Bridge

open LsePc.Lib

/-! ## 1. The states of an instruction -/

/-- The architectural state a clock-level state shows. -/
def OcdSys.arch (x : OcdSys) : Arch where
  words := x.mem.words
  pc := x.ocd.pc
  cmpr := x.ocd.cmpr
  stop := x.ocd.stop
  en := x.ocd.en
  dout := x.ocd.dout
  readyN := x.ocd.readyN
  hold := x.ocd.hold
  intr := x.ocd.intr
  nmi := x.ocd.nmi
  reset := x.ocd.reset

theorem arch_mk (x : OcdSys) : x.arch =
    ⟨x.mem.words, x.ocd.pc, x.ocd.cmpr, x.ocd.stop, x.ocd.en, x.ocd.dout, x.ocd.readyN,
      x.ocd.hold, x.ocd.intr, x.ocd.nmi, x.ocd.reset⟩ := rfl

/-- FETCH: the memory shows the word at `pc`. -/
structure AtFetch (x : OcdSys) : Prop where
  state : x.ocd.state = .fetch
  memWrite : x.ocd.memWrite = false
  addrQ : x.mem.addrQ = x.ocd.pc.setWidth 9

/-- LOAD: the instruction is latched, its operand address is on the port. -/
structure AtLoad (x : OcdSys) : Prop where
  state : x.ocd.state = .load
  memWrite : x.ocd.memWrite = false
  instr : x.ocd.instr = x.arch.instr
  nextPc : x.ocd.nextPc = x.ocd.pc + 1
  memAddress : x.ocd.memAddress = x.arch.srcAddr

/-- EXEC: the memory shows the operand, and keeps showing it while the unit waits. -/
structure AtExec (x : OcdSys) : Prop where
  state : x.ocd.state = .exec
  memWrite : x.ocd.memWrite = false
  instr : x.ocd.instr = x.arch.instr
  nextPc : x.ocd.nextPc = x.ocd.pc + 1
  memAddress : x.ocd.memAddress = x.arch.srcAddr
  addrQ : x.mem.addrQ = x.arch.srcAddr

/-- STORE_FETCH: `pc` is on the port. -/
structure AtStoreFetch (x : OcdSys) : Prop where
  state : x.ocd.state = .storeFetch
  memWrite : x.ocd.memWrite = false
  memAddress : x.ocd.memAddress = x.ocd.pc.setWidth 9

/-! ## 2. One edge from each state -/

section Edges

variable {x : OcdSys}

/-- In FETCH the memory shows the instruction at `pc`. -/
theorem AtFetch.readdata (h : AtFetch x) : x.mem.readdata = x.arch.instr := by
  unfold OcdMem.readdata
  rw [h.addrQ]
  rfl

/-- In EXEC the memory shows the operand. -/
theorem AtExec.readdata (h : AtExec x) : x.mem.readdata = x.arch.operand := by
  unfold OcdMem.readdata
  rw [h.addrQ]
  rfl

/-- Without a write an edge keeps the words and registers the address. -/
theorem clk_mem (h : x.ocd.memWrite = false) (i : OcdIn) :
    (x.clk i).mem = ⟨x.mem.words, x.ocd.memAddress⟩ := by
  simp [OcdSys.clk, OcdMem.edge, h]

theorem atFetch_clk (h : AtFetch x) (i : OcdIn) :
    AtLoad (x.clk i) ∧ (x.clk i).arch = x.arch := by
  have hocd : (x.clk i).ocd = doFetch x.ocd x.arch.instr := by
    simp only [OcdSys.clk, Ocd.tick, h.state, h.readdata]
  have harch : (x.clk i).arch = x.arch := by
    simp only [OcdSys.arch, hocd, clk_mem h.memWrite, doFetch]
  refine ⟨⟨?_, ?_, ?_, ?_, ?_⟩, harch⟩
  · rw [hocd]; rfl
  · rw [hocd]; exact h.memWrite
  · rw [harch, hocd]; rfl
  · rw [hocd]; rfl
  · rw [harch, hocd]; rfl

theorem atLoad_clk (h : AtLoad x) (i : OcdIn) :
    AtExec (x.clk i) ∧ (x.clk i).arch = x.arch := by
  have hocd : (x.clk i).ocd = doLoad x.ocd := by
    simp only [OcdSys.clk, Ocd.tick, h.state]
  have harch : (x.clk i).arch = x.arch := by
    simp only [OcdSys.arch, hocd, clk_mem h.memWrite, doLoad]
  refine ⟨⟨?_, ?_, ?_, ?_, ?_, ?_⟩, harch⟩
  · rw [hocd]; rfl
  · rw [hocd]; exact h.memWrite
  · rw [harch, hocd]; exact h.instr
  · rw [hocd]; exact h.nextPc
  · rw [harch, hocd]; exact h.memAddress
  · rw [harch, clk_mem h.memWrite]; exact h.memAddress

theorem atStoreFetch_clk (h : AtStoreFetch x) (i : OcdIn) :
    AtFetch (x.clk i) ∧ (x.clk i).arch = x.arch := by
  have hocd : (x.clk i).ocd = doStoreFetch x.ocd := by
    simp only [OcdSys.clk, Ocd.tick, h.state]
  refine ⟨⟨?_, ?_, ?_⟩, ?_⟩
  · rw [hocd]; rfl
  · rw [hocd]; exact h.memWrite
  · rw [hocd, clk_mem h.memWrite]; exact h.memAddress
  · simp only [OcdSys.arch, hocd, clk_mem h.memWrite, doStoreFetch]

/-! ### The EXEC edge

The EXEC and STORE tasks are one case for every mnemonic and one for an unknown
opcode; in each the wires of the instruction are known. -/

/-- A masked term of `source`, cut to the sixteen bits of the wire. -/
theorem setWidth_rep16_and (b : Bool) (y : BitVec 24) :
    (rep16 b &&& y).setWidth 16 = if b then y.setWidth 16 else 0 := by
  cases b with
  | false => simp [rep16, BitVec.fill]
  | true =>
    have hall : (rep16 true).setWidth 16 = BitVec.allOnes 16 := by decide
    rw [BitVec.setWidth_and, hall, BitVec.allOnes_and]
    rfl

theorem setWidth_bit24 (b : Bool) : (bit24 b).setWidth 16 = Arch.level b := by
  cases b <;> decide

/-- The `source` wire, term by term on sixteen bits. -/
theorem source_eq (w : Word) (i : OcdIn) (q : Word) :
    source w i q =
      (if memLoad w then q else 0) ||| (if instrLdd w then i.din else 0) |||
      (if instrLdal w then i.a.setWidth 16 else 0) |||
      (if instrLdal w then (i.a >>> 16).setWidth 16 else 0) |||
      Arch.level (instrLdwr w && i.wr) ||| Arch.level (instrLddc w && i.dc) |||
      Arch.level (instrLdmio w && i.mio) := by
  have hcut : ∀ y : Word, (y.setWidth 24).setWidth 16 = y := fun y => by
    rw [BitVec.setWidth_setWidth_of_le _ (by decide), BitVec.setWidth_eq]
  simp only [source, BitVec.setWidth_or, setWidth_rep16_and, setWidth_bit24, hcut]

/-- The EXEC task as the edge runs it: on the operand of the instruction. -/
theorem atExec_ocd (h : AtExec x) (i : OcdIn) :
    (x.clk i).ocd = doExec x.ocd i x.arch.operand := by
  simp only [OcdSys.clk, Ocd.tick, h.state, h.readdata]

/-- A waiting instruction is none that branches. -/
theorem doExec_nextPc_of_wait {o : Ocd} {i : OcdIn} {q : Word} (hw : execWait o.instr i = true) :
    (doExec o i q).nextPc = o.nextPc := by
  simp only [execWait, wires] at hw
  simp only [doExec, wires]
  cases hm : mnem o.instr with
  | none => simp
  | some m => cases m <;> simp [hm] at hw ⊢

/-- While the wait condition holds the unit stays in EXEC, on the same operand. -/
theorem atExec_wait (h : AtExec x) (i : OcdIn) (hw : execWait x.arch.instr i = true) :
    AtExec (x.clk i) ∧ (x.clk i).arch = x.arch.step i := by
  have hocd := atExec_ocd h i
  have hmem := clk_mem h.memWrite i
  have hwo : execWait x.ocd.instr i = true := by rw [h.instr]; exact hw
  have hpc : (x.clk i).ocd.pc = x.ocd.pc := by rw [hocd]; rfl
  have hinstr : (x.clk i).arch.instr = x.arch.instr := by
    show (x.clk i).mem.words ((x.clk i).ocd.pc.setWidth 9) = _
    rw [hmem, hpc]
    rfl
  have hsrc : (x.clk i).arch.srcAddr = x.arch.srcAddr := by
    unfold Arch.srcAddr
    rw [hinstr]
    show (if _ then (x.clk i).ocd.pc.setWidth 9 + 1 else _) = _
    rw [hpc]
    rfl
  have harch : (x.clk i).arch = x.arch.step i := by
    rw [arch_mk (x.clk i), Arch.step, hocd, hmem]
    simp only [doExec, h.instr]
    simp only [execWait, wires] at hw ⊢
    generalize x.arch.instr = w at hw ⊢
    cases hm : mnem w with
    | none => simp [hm] at hw
    | some m => cases m <;> simp [hm] at hw <;> simp [Arch.exec, Arch.ack, arch_mk x, hw]
  refine ⟨⟨?_, ?_, ?_, ?_, ?_, ?_⟩, harch⟩
  · simp [hocd, doExec, hwo]
  · simp [hocd, doExec, hwo, h.memWrite]
  · rw [hinstr, hocd]
    exact h.instr
  · rw [hpc, hocd, doExec_nextPc_of_wait hwo]
    exact h.nextPc
  · rw [hsrc, hocd]
    simp [doExec, hwo, h.memAddress]
  · rw [hsrc, hmem]
    exact h.memAddress

/-- Otherwise the unit goes to STORE. -/
theorem atExec_state (h : AtExec x) (i : OcdIn) (hw : execWait x.arch.instr i = false) :
    (x.clk i).ocd.state = .store := by
  simp [atExec_ocd h i, doExec, h.instr, hw]

/-- The edge after STORE writes what `source` was to `R[d]` of a storing instruction. -/
theorem atExec_words (h : AtExec x) (i j : OcdIn) (hw : execWait x.arch.instr i = false) :
    ((x.clk i).clk j).mem.words = if memStore x.arch.instr then
      Function.update x.mem.words (Arch.regAddr (d x.arch.instr))
        (source x.arch.instr i x.arch.operand) else x.mem.words := by
  show (OcdMem.edge _ _ _ _).words = _
  rw [atExec_ocd h i, clk_mem h.memWrite i]
  rw [← h.instr] at hw ⊢
  simp only [OcdMem.edge, doExec, hw, h.memWrite]
  simp [Arch.regAddr]

/-- **The edge after STORE commits the instruction.** -/
theorem atExec_done (h : AtExec x) (i j : OcdIn) (hw : execWait x.arch.instr i = false) :
    AtStoreFetch ((x.clk i).clk j) ∧ ((x.clk i).clk j).arch = x.arch.step i := by
  have hocd : ((x.clk i).clk j).ocd = doStore (doExec x.ocd i x.arch.operand) := by
    have hst := atExec_state h i hw
    have hexec := atExec_ocd h i
    simp only [OcdSys.clk, Ocd.tick] at hst hexec ⊢
    rw [hst, hexec]
  refine ⟨⟨?_, ?_, ?_⟩, ?_⟩
  · rw [hocd]; rfl
  · rw [hocd]; rfl
  · rw [hocd]; rfl
  · rw [arch_mk ((x.clk i).clk j), Arch.step, hocd, atExec_words h i j hw]
    simp only [doStore, doExec, h.instr, h.nextPc]
    simp only [execWait, wires, memStore, source_eq, memLoad] at hw ⊢
    generalize x.arch.instr = w at hw ⊢
    cases hm : mnem w with
    | none => simp [Arch.exec, Arch.next, arch_mk x]
    | some m =>
      by_cases hz : x.ocd.cmpr = 0#16 <;> cases m <;> simp [hm] at hw <;>
        (simp [Arch.exec, Arch.ack, Arch.next, Arch.caught, Arch.goto, Arch.setReg, Arch.level,
          arch_mk x, hw, hz]; try rfl)

end Edges

/-! ## 3. The invariant of a run -/

/-- A clock-level state in the middle of a run whose EXEC clocks so far have made `σ`. -/
inductive InPhase (x : OcdSys) (σ : Arch) : Prop where
  | fetch (h : AtFetch x) (ha : x.arch = σ)
  | load (h : AtLoad x) (ha : x.arch = σ)
  | exec (h : AtExec x) (ha : x.arch = σ)
  | store (hs : x.ocd.state = .store)
      (h : ∀ i, AtStoreFetch (x.clk i) ∧ (x.clk i).arch = σ)
  | storeFetch (h : AtStoreFetch x) (ha : x.arch = σ)

/-- The clocks in which the pins matter. -/
def inExec (x : OcdSys) : Bool := x.ocd.state == .exec

/-- **One edge**: only an EXEC clock moves the architectural state, by one `step`. -/
theorem inPhase_clk {x : OcdSys} {σ : Arch} (h : InPhase x σ) (i : OcdIn) :
    InPhase (x.clk i) (if inExec x then σ.step i else σ) := by
  unfold inExec
  cases h with
  | fetch h ha =>
    rw [h.state]
    exact .load (atFetch_clk h i).1 ((atFetch_clk h i).2.trans ha)
  | load h ha =>
    rw [h.state]
    exact .exec (atLoad_clk h i).1 ((atLoad_clk h i).2.trans ha)
  | exec h ha =>
    rw [h.state]
    subst ha
    cases hw : execWait x.arch.instr i with
    | true => exact .exec (atExec_wait h i hw).1 (atExec_wait h i hw).2
    | false => exact .store (atExec_state h i hw) fun j => atExec_done h i j hw
  | store hs h =>
    rw [hs]
    exact .storeFetch (h i).1 (h i).2
  | storeFetch h ha =>
    rw [h.state]
    exact .fetch (atStoreFetch_clk h i).1 ((atStoreFetch_clk h i).2.trans ha)

/-- The state `rst` leaves: the first STORE commits nothing and sets `pc` to 0. -/
def Arch.boot (σ : Arch) : Arch := { σ with pc := 0, stop := false }

theorem inPhase_reset (o : Ocd) (m : OcdMem) :
    InPhase ⟨resetOcd o, m⟩ (OcdSys.arch ⟨o, m⟩).boot := by
  -- word 0 is EXIT: no wait of the STORE task, no LDI
  have h0 : instrWaitads 0#16 = false ∧ instrWaitlock 0#16 = false ∧
      instrWaitio 0#16 = false ∧ instrLdi 0#16 = false := by decide
  refine .store rfl fun i => ⟨⟨rfl, rfl, rfl⟩, ?_⟩
  rw [arch_mk]
  simp [OcdSys.clk, Ocd.tick, resetOcd, doStore, h0, OcdMem.edge, Arch.boot, arch_mk]

/-- **The invariant of every run.** -/
theorem inPhase_run {x : OcdSys} {σ : Arch} (h : InPhase x σ) (inp : Nat → OcdIn) (n : Nat) :
    InPhase (x.run inp n) (σ.steps (sampled OcdSys.clk inExec x inp n)) := by
  induction n with
  | zero => exact h
  | succ n ih =>
    have hn := inPhase_clk ih (inp n)
    rw [sampled_succ, Arch.steps_append]
    show InPhase ((x.run inp n).clk (inp n)) _
    cases hx : inExec (x.run inp n) with
    | true =>
      rw [hx] at hn
      exact hn
    | false =>
      rw [hx] at hn
      exact hn

/-! ## 4. The whole run -/

/-- What the supervisor may rely on in a run of the unit on its memory. -/
structure PipelineOk (x : OcdSys) (inp : Nat → OcdIn) : Prop where
  /-- The run starts with the STORE of the reset and fetches word 0 in clock 2. -/
  boot : (x.run inp 0).ocd.state = .store ∧ (x.run inp 1).ocd.state = .storeFetch ∧
    (x.run inp 2).ocd.state = .fetch ∧ (x.run inp 2).ocd.pc = 0 ∧
    (x.run inp 2).mem.words = x.mem.words
  /-- FETCH, LOAD, EXEC, STORE, STORE_FETCH, FETCH; EXEC is repeated exactly while the wait
      condition of its instruction holds. -/
  fetch_next : ∀ n, (x.run inp n).ocd.state = .fetch → (x.run inp (n + 1)).ocd.state = .load
  load_next : ∀ n, (x.run inp n).ocd.state = .load → (x.run inp (n + 1)).ocd.state = .exec
  exec_next : ∀ n, (x.run inp n).ocd.state = .exec → (x.run inp (n + 1)).ocd.state =
    if execWait (x.run inp n).ocd.instr (inp n) then .exec else .store
  store_next : ∀ n, (x.run inp n).ocd.state = .store →
    (x.run inp (n + 1)).ocd.state = .storeFetch
  storeFetch_next : ∀ n, (x.run inp n).ocd.state = .storeFetch →
    (x.run inp (n + 1)).ocd.state = .fetch
  /-- In FETCH the memory shows the program word at `pc`. -/
  fetch_word : ∀ n, (x.run inp n).ocd.state = .fetch →
    (x.run inp n).mem.readdata = x.arch.prog (x.run inp n).ocd.pc
  /-- In every EXEC clock it shows the word after an LDI, the current `R[s]` otherwise. -/
  exec_word : ∀ n, (x.run inp n).ocd.state = .exec →
    (x.run inp n).ocd.instr = x.arch.prog (x.run inp n).ocd.pc ∧
    (x.run inp n).mem.readdata =
      if instrLdi (x.run inp n).ocd.instr then x.arch.prog ((x.run inp n).ocd.pc + 1)
      else (x.run inp n).arch.reg (s (x.run inp n).ocd.instr)
  /-- After STORE, `R[d]` holds what `source` was in the last EXEC clock; nothing else
      moves in the memory. -/
  store_word : ∀ n, (x.run inp n).ocd.state = .exec → (x.run inp (n + 1)).ocd.state = .store →
    (x.run inp (n + 2)).mem.words =
      if memStore (x.run inp n).ocd.instr then
        Function.update (x.run inp n).mem.words (Arch.regAddr (d (x.run inp n).ocd.instr))
          (source (x.run inp n).ocd.instr (inp n) (x.run inp n).mem.readdata)
      else (x.run inp n).mem.words
  keep_word : ∀ n, (x.run inp n).ocd.state ≠ .store →
    (x.run inp (n + 1)).mem.words = (x.run inp n).mem.words
  /-- At every FETCH the unit shows what executing one instruction after the other on the
      pins of the EXEC clocks makes of the start. -/
  refines : ∀ n, (x.run inp n).ocd.state = .fetch →
    (x.run inp n).arch = x.arch.boot.steps (sampled OcdSys.clk inExec x inp n)

/-- Below address 255 the nine-bit `pc + 1` of an LDI is a program address. -/
theorem setWidth_succ {p : BitVec 8} (h : p ≠ 255) : p.setWidth 9 + 1 = (p + 1).setWidth 9 := by
  revert p
  decide

/-- The `case (state)` of the always block, in the clock after `n`. -/
theorem run_state (x : OcdSys) (inp : Nat → OcdIn) (n : Nat) :
    (x.run inp (n + 1)).ocd.state = match (x.run inp n).ocd.state with
      | .fetch => .load
      | .load => .exec
      | .exec => if execWait (x.run inp n).ocd.instr (inp n) then .exec else .store
      | .execStore => .execStore
      | .store => .storeFetch
      | .storeFetch => .fetch := by
  show ((x.run inp n).clk (inp n)).ocd.state = _
  cases hs : (x.run inp n).ocd.state <;>
    simp [OcdSys.clk, Ocd.tick, hs, doFetch, doLoad, doExec, doStore, doStoreFetch]

section Phases

variable {x : OcdSys} {σ : Arch}

theorem InPhase.atFetch (h : InPhase x σ) (hs : x.ocd.state = .fetch) :
    AtFetch x ∧ x.arch = σ := by
  cases h with
  | fetch h ha => exact ⟨h, ha⟩
  | load h _ => rw [h.state] at hs; cases hs
  | exec h _ => rw [h.state] at hs; cases hs
  | store h _ => rw [h] at hs; cases hs
  | storeFetch h _ => rw [h.state] at hs; cases hs

theorem InPhase.atExec (h : InPhase x σ) (hs : x.ocd.state = .exec) :
    AtExec x ∧ x.arch = σ := by
  cases h with
  | fetch h _ => rw [h.state] at hs; cases hs
  | load h _ => rw [h.state] at hs; cases hs
  | exec h ha => exact ⟨h, ha⟩
  | store h _ => rw [h] at hs; cases hs
  | storeFetch h _ => rw [h.state] at hs; cases hs

/-- No state but STORE writes. -/
theorem InPhase.memWrite (h : InPhase x σ) (hs : x.ocd.state ≠ .store) :
    x.ocd.memWrite = false := by
  cases h with
  | fetch h _ => exact h.memWrite
  | load h _ => exact h.memWrite
  | exec h _ => exact h.memWrite
  | store h _ => exact absurd h hs
  | storeFetch h _ => exact h.memWrite

end Phases

/-- **The pipeline refines one-instruction-at-a-time execution**, from the release of `rst`,
    for every program without an LDI word at address 255, every register file and every
    trace of the pins. -/
theorem ocd_pipeline (o : Ocd) (m : OcdMem) (hldi : op (m.words 255) ≠ Opc.ldi)
    (inp : Nat → OcdIn) : PipelineOk ⟨resetOcd o, m⟩ inp := by
  have hrun := inPhase_run (inPhase_reset o m) inp
  generalize hx : (⟨resetOcd o, m⟩ : OcdSys) = x at hrun
  have hboot : (OcdSys.arch ⟨o, m⟩).boot = x.arch.boot := by rw [← hx]; rfl
  have hm : x.mem = m := by rw [← hx]
  rw [hboot] at hrun
  -- the program is the one the run started with
  have hprog : ∀ n p, (x.arch.boot.steps (sampled OcdSys.clk inExec x inp n)).prog p =
      x.arch.prog p := fun n p => Arch.steps_prog ..
  have hexec : ∀ n, (x.run inp n).ocd.state = .exec →
      AtExec (x.run inp n) ∧ (x.run inp n).ocd.instr = x.arch.prog (x.run inp n).ocd.pc := by
    intro n hs
    obtain ⟨h, ha⟩ := (hrun n).atExec hs
    refine ⟨h, h.instr.trans ?_⟩
    rw [Arch.instr, ha, hprog, ← ha]
    rfl
  refine ⟨?_, ?_, ?_, ?_, ?_, ?_, ?_, ?_, ?_, ?_, ?_⟩
  · subst hx
    exact ⟨rfl, rfl, rfl, by show (0 : BitVec 8) + (if instrLdi 0 then 1 else 0) = 0; decide, rfl⟩
  · intro n hs
    rw [run_state, hs]
  · intro n hs
    rw [run_state, hs]
  · intro n hs
    rw [run_state, hs]
  · intro n hs
    rw [run_state, hs]
  · intro n hs
    rw [run_state, hs]
  · intro n hs
    obtain ⟨h, ha⟩ := (hrun n).atFetch hs
    rw [h.readdata, Arch.instr, ha, hprog, ← ha]
    rfl
  · intro n hs
    obtain ⟨h, hi⟩ := hexec n hs
    refine ⟨hi, ?_⟩
    rw [h.readdata, Arch.operand, Arch.srcAddr, ← h.instr]
    by_cases hop : op (x.run inp n).ocd.instr = Opc.ldi
    · have hpc : (x.run inp n).ocd.pc ≠ 255 := by
        intro hpc
        rw [hi, hpc] at hop
        exact hldi (hm ▸ hop)
      rw [if_pos hop, if_pos (by simpa [instrLdi, instrIs] using hop)]
      show (x.run inp n).mem.words ((x.run inp n).ocd.pc.setWidth 9 + 1) = _
      rw [setWidth_succ hpc, ← hprog n, ← ((hrun n).atExec hs).2]
      rfl
    · rw [if_neg hop, if_neg (by simpa [instrLdi, instrIs] using hop)]
      rfl
  · intro n hs hs'
    have h := ((hrun n).atExec hs).1
    have hnext := run_state x inp n
    rw [hs] at hnext
    have hw : execWait (x.run inp n).arch.instr (inp n) = false := by
      rw [← h.instr]
      cases hw : execWait (x.run inp n).ocd.instr (inp n) with
      | false => rfl
      | true =>
        rw [hw] at hnext
        exact absurd (hs'.symm.trans hnext) (by decide)
    have hwords := atExec_words h (inp n) (inp (n + 1)) hw
    rw [← h.instr, ← h.readdata] at hwords
    exact hwords
  · intro n hs
    show ((x.run inp n).clk (inp n)).mem.words = _
    rw [clk_mem ((hrun n).memWrite hs)]
  · intro n hs
    exact ((hrun n).atFetch hs).2

/-- `LDI R1, 0x1234; LDCMP R1; MOV R2, R1; CMP R2; WAITLOCK; BEQ 9; EXIT; EXIT; LDAL R3; EXIT`:
    each word reads what the one before it has stored. -/
def lockRoutine : OcdMem :=
  { words := fun a => [0x2001, 0x1234, 0x2810, 0x2112, 0x6020, 0x4800, 0x7109, 0, 0,
      0x2203].getD a.toNat 0
    addrQ := 0 }

/-- A LOCK#ed cycle, in which the unit is let through after it has waited. -/
def lockedFrom (n : Nat) : Nat → OcdIn := fun k =>
  { (default : OcdIn) with adsN := decide (k < n), lockN := decide (k < n), a := 0x000008 }

theorem ocd_pipeline_lock :
    PipelineOk ⟨resetOcd default, lockRoutine⟩ (lockedFrom 40) ∧
    (OcdSys.run ⟨resetOcd default, lockRoutine⟩ (lockedFrom 40) 36).ocd.state = .exec ∧
    (OcdSys.run ⟨resetOcd default, lockRoutine⟩ (lockedFrom 40) 60).ocd.stop = true ∧
    (OcdSys.run ⟨resetOcd default, lockRoutine⟩ (lockedFrom 40) 60).arch.reg 2 = 0x1234 ∧
    (OcdSys.run ⟨resetOcd default, lockRoutine⟩ (lockedFrom 40) 60).arch.reg 3 = 8 := by
  refine ⟨ocd_pipeline default lockRoutine (by decide) (lockedFrom 40), ?_⟩
  decide +kernel

end LsePc.Bridge
