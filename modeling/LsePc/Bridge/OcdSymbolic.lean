/-
  File:      LsePc/Bridge/OcdSymbolic.lean
  Subject:   A verified symbolic execution of straight-line OCD code.

  Between two branches a routine moves words without looking at them, so where the
  content of each register and each driven word comes from can be computed from the
  words of the routine alone.

  * `Sym`, `SymState`, `symStep`, `symSteps`: the sources of words and the execution;
    it gives up at a branch, at EXIT and at the end of the words;
  * `Loaded`: the memory holds the words of a routine from address 0;
  * `symSteps_sound`: after `n` completed instructions of the unit the registers, `pc`
    and the driven words are what the symbolic state says, on every bus.
-/
import LsePc.Bridge.OcdRoutine

namespace LsePc.Bridge

/-! ## 1. Sources of words -/

/-- Where a word comes from: a register at the start, the routine itself, or a pin in the
    clock in which instruction `k` completed. -/
inductive Sym where
  | init (r : BitVec 4)
  | imm (v : Word)
  | din (k : Nat)
  | al (k : Nat)
  | wr (k : Nat)
  | dc (k : Nat)
  | mio (k : Nat)
  deriving DecidableEq, Repr

def Sym.eval (σ : Arch) (bus : Nat → OcdIn) : Sym → Word
  | .init r => σ.reg r
  | .imm v => v
  | .din k => (bus k).din
  | .al k => (bus k).a.setWidth 16 ||| ((bus k).a >>> 16).setWidth 16
  | .wr k => Arch.level (bus k).wr
  | .dc k => Arch.level (bus k).dc
  | .mio k => Arch.level (bus k).mio

/-- `k` instructions completed, at `pc`; the sources of the registers, of the words driven
    and of the words captured. -/
structure SymState where
  k : Nat
  pc : Nat
  regs : BitVec 4 → Sym
  out : List Sym
  taken : List Sym

def SymState.start : SymState := ⟨0, 0, .init, [], []⟩

/-- What an instruction stores to `R[d]`; `imm` is the word after it. -/
def SymState.stored (t : SymState) (w imm : Word) : Option Mnem → Option Sym
  | some .ldi => some (.imm imm)
  | some .mov => some (t.regs (s w))
  | some .clr | some .ldah => some (.imm 0)
  | some .ldd => some (.din t.k)
  | some .ldal => some (.al t.k)
  | some .ldwr => some (.wr t.k)
  | some .lddc => some (.dc t.k)
  | some .ldmio => some (.mio t.k)
  | _ => none

/-- Branches and EXIT. -/
def isFlow (w : Word) : Bool := instrBa w || instrBeq w || instrBne w || instrExit w

/-- One instruction of a routine `ws`. -/
def symStep (ws : List Word) (t : SymState) : Option SymState :=
  match ws[t.pc]?, ws[t.pc + 1]? with
  | some w, some imm =>
    if isFlow w then none
    else some {
      k := t.k + 1
      pc := t.pc + if instrLdi w then 2 else 1
      regs := match t.stored w imm (mnem w) with
        | some v => Function.update t.regs (d w) v
        | none => t.regs
      out := if instrStd w then t.out ++ [t.regs (s w)] else t.out
      taken := if instrLdd w then t.taken ++ [.din t.k] else t.taken }
  | _, _ => none

def symSteps (ws : List Word) : Nat → SymState → Option SymState
  | 0, t => some t
  | n + 1, t => (symStep ws t).bind (symSteps ws n)

/-! ## 2. Soundness -/

/-- The program memory starts with the words `ws`. -/
def Loaded (σ : Arch) (ws : List Word) : Prop :=
  ∀ k w, ws[k]? = some w → σ.prog (BitVec.ofNat 8 k) = w

/-- The unit after `t.k` instructions, EXIT not among them, is what `t` says of it. -/
structure SymRep (σ : Arch) (bus : Nat → OcdIn) (t : SymState) : Prop where
  pc : (σ.finishes bus t.k).pc = BitVec.ofNat 8 t.pc
  regs : ∀ r, (σ.finishes bus t.k).reg r = (t.regs r).eval σ bus
  out : σ.driven bus t.k = t.out.map (Sym.eval σ bus)
  taken : σ.captured bus t.k = t.taken.map (Sym.eval σ bus)
  noExit : ∀ m < t.k, mnem (σ.finishes bus m).instr ≠ some .exit

theorem SymRep.start {σ : Arch} (hpc : σ.pc = 0) (bus : Nat → OcdIn) : SymRep σ bus .start :=
  ⟨hpc, fun _ => rfl, rfl, rfl, fun m hm => absurd hm (Nat.not_lt_zero m)⟩

theorem released_go {i : OcdIn} {w : Word} (h : mnem w ≠ some .exit) :
    execWait w (i.released w) = false := by
  unfold OcdIn.released
  cases hw : execWait w i with
  | false => simp [hw]
  | true =>
    simp only [if_true, execWait_readme]
    cases hm : mnem w with
    | none => rfl
    | some m =>
      cases m
      case exit => exact absurd hm h
      all_goals rfl

/-- The instruction the unit comes to. -/
theorem symRep_instr {σ : Arch} {ws : List Word} {bus : Nat → OcdIn} {t : SymState}
    (hload : Loaded σ ws) (h : SymRep σ bus t) {m : Option Mnem}
    (hw : ws[t.pc]?.map mnem = some m) : mnem (σ.finishes bus t.k).instr = m := by
  obtain ⟨w, hw, hmw⟩ := Option.map_eq_some_iff.mp hw
  rw [Arch.instr, h.pc, Arch.finishes_prog, hload t.pc w hw, hmw]

/-- The pins a register can be loaded from are never the pins that are released. -/
theorem released_of_not_wait {i : OcdIn} {w : Word} (h : execWait w i = false) :
    i.released w = i := by
  simp [OcdIn.released, h]

theorem stored_eval {σ τ : Arch} {bus : Nat → OcdIn} {t : SymState} {imm : Word}
    (hregs : ∀ r, τ.reg r = (t.regs r).eval σ bus)
    (himm : instrLdi τ.instr = true → τ.operand = imm) :
    τ.stored ((bus t.k).released τ.instr) (mnem τ.instr) =
      (t.stored τ.instr imm (mnem τ.instr)).map (Sym.eval σ bus) := by
  cases hm : mnem τ.instr with
  | none => rfl
  | some m =>
    have hne : m ≠ .ldi → τ.operand = τ.reg (s τ.instr) := by
      intro hne
      rw [Arch.operand, Arch.srcAddr, mnem_eq_some.mp hm,
        if_neg fun e => hne (Mnem.code_inj (e.trans rfl : m.code = Mnem.ldi.code))]
      rfl
    have hrel : readmeWaits (some m) (bus t.k) = false →
        (bus t.k).released τ.instr = bus t.k := fun h =>
      released_of_not_wait (by rw [execWait_readme, hm]; exact h)
    cases m
    case ldi =>
      have hl : instrLdi τ.instr = true := by simp [wires, hm]
      simp [Arch.stored, SymState.stored, himm hl, Sym.eval]
    case mov => simp [Arch.stored, SymState.stored, hne, hregs]
    case ldal => simp [Arch.stored, SymState.stored, hrel rfl, Sym.eval]
    case ldd => simp [Arch.stored, SymState.stored, hrel rfl, Sym.eval]
    case ldwr => simp [Arch.stored, SymState.stored, hrel rfl, Sym.eval]
    case lddc => simp [Arch.stored, SymState.stored, hrel rfl, Sym.eval]
    case ldmio => simp [Arch.stored, SymState.stored, hrel rfl, Sym.eval]
    all_goals rfl

/-- An instruction that is neither a branch nor EXIT goes on to the next one. -/
theorem finish_pc_straight {τ : Arch} (h : isFlow τ.instr = false) (i : OcdIn) :
    (τ.finish i).pc = τ.pc + if instrLdi τ.instr then 2 else 1 := by
  have hexit : mnem τ.instr ≠ some .exit := by
    intro he
    simp [isFlow, wires, he] at h
  have hgo : readmeWaits (mnem τ.instr) (i.released τ.instr) = false := by
    rw [← execWait_readme]
    exact released_go hexit
  obtain ⟨-, hnext, -⟩ := step_readme (⟨rfl, rfl, rfl⟩ : SameData τ τ) (i.released τ.instr) hgo
  rw [Arch.finish, hnext]
  cases hm : mnem τ.instr with
  | none => simp [readmePc, wires, hm]
  | some m => cases m <;> simp [isFlow, wires, hm] at h ⊢ <;> simp [readmePc, BitVec.add_assoc]

/-- **One instruction.** -/
theorem symStep_sound {σ : Arch} {ws : List Word} {bus : Nat → OcdIn} {t t' : SymState}
    (hload : Loaded σ ws) (hlen : ws.length ≤ 256) (h : SymRep σ bus t)
    (hstep : symStep ws t = some t') : t'.k = t.k + 1 ∧ SymRep σ bus t' := by
  unfold symStep at hstep
  split at hstep
  case h_2 => cases hstep
  case h_1 w imm hw himm =>
    have hflow : isFlow w = false := by
      cases hf : isFlow w with
      | false => rfl
      | true => simp [hf] at hstep
    rw [hflow] at hstep
    simp only [Bool.false_eq_true, if_false, Option.some.injEq] at hstep
    subst hstep
    have hlt : t.pc + 1 < ws.length := (List.getElem?_eq_some_iff.mp himm).1
    generalize hτ : σ.finishes bus t.k = τ
    have hpc : τ.pc = BitVec.ofNat 8 t.pc := hτ ▸ h.pc
    have hregs : ∀ r, τ.reg r = (t.regs r).eval σ bus := hτ ▸ h.regs
    have hprog : ∀ p, τ.prog p = σ.prog p := fun p => by rw [← hτ, Arch.finishes_prog]
    have hinstr : τ.instr = w := by
      rw [Arch.instr, hpc, hprog]
      exact hload _ _ hw
    subst hinstr
    have hexit : mnem τ.instr ≠ some .exit := by
      intro he
      simp [isFlow, wires, he] at hflow
    have hpc1 : τ.pc ≠ 255 := by
      intro e
      rw [hpc] at e
      have := congrArg BitVec.toNat e
      simp at this
      omega
    have hldi : instrLdi τ.instr = true → τ.operand = imm := by
      intro hl
      have hop : op τ.instr = Opc.ldi := by simpa [instrLdi, instrIs] using hl
      rw [Arch.operand, Arch.srcAddr, if_pos hop, setWidth_succ hpc1]
      show τ.prog (τ.pc + 1) = imm
      rw [hprog, hpc, show BitVec.ofNat 8 t.pc + 1 = BitVec.ofNat 8 (t.pc + 1) from
        BitVec.ofNat_add_ofNat _ _]
      exact hload _ _ himm
    have hsucc : σ.finishes bus (t.k + 1) = τ.finish (bus t.k) := by
      rw [Arch.finishes_succ, hτ]
    refine ⟨rfl, ⟨?_, fun r => ?_, ?_, ?_, fun m hm => ?_⟩⟩
    · show (σ.finishes bus (t.k + 1)).pc = _
      rw [hsucc, finish_pc_straight hflow, hpc]
      show _ = BitVec.ofNat 8 (t.pc + if instrLdi τ.instr then 2 else 1)
      rw [BitVec.ofNat_add]
      split <;> rfl
    · show (σ.finishes bus (t.k + 1)).reg r = _
      rw [hsucc, Arch.finish, step_reg_eq, stored_eval hregs hldi]
      cases t.stored τ.instr imm (mnem τ.instr) with
      | none => exact hregs r
      | some v =>
        show (if r = d τ.instr then v.eval σ bus else τ.reg r) =
          (Function.update t.regs (d τ.instr) v r).eval σ bus
        rw [Function.update_apply]
        split
        · rfl
        · exact hregs r
    · show σ.driven bus (t.k + 1) = _
      rw [Arch.driven_succ, hτ, Arch.drives, h.out]
      by_cases hs : instrStd τ.instr = true
      · have hop : τ.operand = τ.reg (s τ.instr) := by
          have hm : mnem τ.instr = some .std := by simpa [wires] using hs
          rw [Arch.operand, Arch.srcAddr, mnem_eq_some.mp hm]
          rfl
        simp [hs, hop, hregs]
      · simp [hs]
    · show σ.captured bus (t.k + 1) = _
      rw [Arch.captured_succ, hτ, h.taken]
      by_cases hl : instrLdd τ.instr = true
      · simp [hl, Sym.eval]
      · simp [hl]
    · rcases Nat.lt_succ_iff_lt_or_eq.mp hm with hlt | rfl
      · exact h.noExit m hlt
      · rw [hτ]
        exact hexit

/-- **Straight-line code**: the unit after `n` instructions is what the symbolic execution
    says. -/
theorem symSteps_sound {σ : Arch} {ws : List Word} {bus : Nat → OcdIn}
    (hload : Loaded σ ws) (hlen : ws.length ≤ 256) {n : Nat} {t t' : SymState}
    (h : SymRep σ bus t) (hsteps : symSteps ws n t = some t') :
    t'.k = t.k + n ∧ SymRep σ bus t' := by
  induction n generalizing t with
  | zero =>
    cases hsteps
    exact ⟨rfl, h⟩
  | succ n ih =>
    rw [symSteps, Option.bind_eq_some_iff] at hsteps
    obtain ⟨u, hu, hrest⟩ := hsteps
    obtain ⟨hk, hrep⟩ := symStep_sound hload hlen h hu
    obtain ⟨hk', hrep'⟩ := ih hrep hrest
    exact ⟨by omega, hrep'⟩

/-- The symbolic execution stopped after `m` instructions. -/
theorem symSteps_prefix {ws : List Word} {m n : Nat} {t t' : SymState}
    (h : symSteps ws (m + n) t = some t') :
    ∃ u, symSteps ws m t = some u ∧ symSteps ws n u = some t' := by
  induction m generalizing t with
  | zero => exact ⟨t, rfl, by rwa [Nat.zero_add] at h⟩
  | succ m ih =>
    rw [Nat.succ_add, symSteps, Option.bind_eq_some_iff] at h
    obtain ⟨v, hv, hrest⟩ := h
    obtain ⟨u, hu, hn⟩ := ih hrest
    exact ⟨u, by rw [symSteps, hv, Option.bind_some, hu], hn⟩

/-- **A BEQ**: only `pc` moves, where the compare register says. -/
theorem symRep_beq {σ : Arch} {ws : List Word} {bus : Nat → OcdIn} {t : SymState}
    (hload : Loaded σ ws) (h : SymRep σ bus t) {w : Word} (hw : ws[t.pc]? = some w)
    (hm : mnem w = some .beq) :
    SymRep σ bus { t with
      k := t.k + 1
      pc := if (σ.finishes bus t.k).cmpr ≠ 0 then (addr w).toNat else t.pc + 1 } := by
  generalize hτ : σ.finishes bus t.k = τ
  have hinstr : τ.instr = w := by
    rw [← hτ, Arch.instr, h.pc, Arch.finishes_prog, hload _ _ hw]
  have hpc : τ.pc = BitVec.ofNat 8 t.pc := hτ ▸ h.pc
  have hfin : σ.finishes bus (t.k + 1) = if τ.cmpr ≠ 0 then τ.goto (addr w) else τ.next := by
    rw [Arch.finishes_succ, hτ, Arch.finish, Arch.step, hinstr, hm]
    rfl
  refine ⟨?_, fun r => ?_, ?_, ?_, fun m hm' => ?_⟩
  · show (σ.finishes bus (t.k + 1)).pc = _
    rw [hfin]
    split
    · exact ((BitVec.ofNat_toNat 8 (addr w)).trans (BitVec.setWidth_eq _)).symm
    · show τ.pc + 1 = _
      rw [hpc]
      exact BitVec.ofNat_add_ofNat _ _
  · have hr : (σ.finishes bus (t.k + 1)).reg r = τ.reg r := by
      rw [hfin]
      split <;> rfl
    exact hr.trans (hτ ▸ h.regs r)
  · show σ.driven bus (t.k + 1) = _
    rw [Arch.driven_succ, hτ, h.out]
    simp [Arch.drives, wires, hinstr, hm]
  · show σ.captured bus (t.k + 1) = _
    rw [Arch.captured_succ, hτ, h.taken]
    simp [wires, hinstr, hm]
  · rcases Nat.lt_succ_iff_lt_or_eq.mp hm' with hlt | rfl
    · exact h.noExit m hlt
    · rw [hτ, hinstr, hm]
      exact fun e => Mnem.noConfusion (Option.some.inj e)

end LsePc.Bridge
