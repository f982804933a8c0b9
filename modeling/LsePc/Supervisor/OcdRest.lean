/-
  File:      LsePc/Supervisor/OcdRest.lean
  Subject:   The OCD unit with its reset, and what the supervisor reads after it has stopped.

  `rst` (OCD_CTL) may change between any two edges of the clock, and its rising edge resets
  the unit at once. The memory has a second port (s1) on which the supervisor may change any
  word at any edge; what the unit reads is left open.

  * `OcdTop`, `OcdTop.step`: the unit with `rst`; `step_clk`: an edge with `rst` low and port
    s1 idle is one of `OcdSys.clk`;
  * `OcdInv`: what ties the write strobe and `stop` to the state and the instruction;
    `ocdInv_tick` has one case for each task;
  * `rest_tick`: a unit that has stopped does not move;
  * **result** (`ocd_rests`): nothing but the data registers is written, and after `stop`
    nothing changes until `rst`.
-/
import LsePc.Supervisor.Ocd
import LsePc.Lib.Transition

namespace LsePc.Supervisor

open LsePc.Lib LsePc.Bridge

/-! ## 1. The unit with its reset -/

/-- The words port s1 writes at an edge. -/
abbrev PortS1 := BitVec 9 → Option Word

def PortS1.write (s1 : PortS1) (words : BitVec 9 → Word) : BitVec 9 → Word := fun a =>
  (s1 a).getD (words a)

/-- A new level of `rst`, or a rising edge of `clk`. Where both ports write one word the
    result is undefined: it is whatever `s1` says. -/
inductive OcdEvent where
  | rst (level : Bool)
  | clk (i : OcdIn) (memReaddata : Word) (s1 : PortS1)

/-- What the supervisor writes. -/
def OcdEvent.s1 : OcdEvent → PortS1
  | .rst _ => fun _ => none
  | .clk _ _ s1 => s1

structure OcdTop extends OcdSys where
  rst : Bool

namespace OcdTop

/-- `always @(posedge clk or posedge rst)`. -/
def step (x : OcdTop) : OcdEvent → OcdTop
  | .rst level =>
    { x with
      rst := level
      ocd := if level && !x.rst then resetOcd x.ocd else x.ocd }
  | .clk i memReaddata s1 =>
    let mem := x.mem.edge x.ocd.memAddress x.ocd.memWrite x.ocd.memWritedata
    { x with
      ocd := if x.rst then resetOcd x.ocd else x.ocd.tick i memReaddata
      mem := { mem with words := s1.write mem.words } }

/-- `initial reset_ocd();` the registers it does not set and the memory hold anything. -/
def Initial (x : OcdTop) : Prop := ∃ o, x.ocd = resetOcd o

def Step (x : OcdTop) (e : OcdEvent) (y : OcdTop) : Prop := y = x.step e

end OcdTop

variable {o : Ocd} {x y : OcdTop}

/-- The unit of OcdSys is this one between two resets. -/
theorem step_clk (hrst : x.rst = false) (i : OcdIn) :
    (x.step (.clk i x.mem.readdata fun _ => none)).toOcdSys = x.toOcdSys.clk i := by
  unfold OcdTop.step OcdSys.clk
  rw [hrst]
  rfl

/-! ## 2. The invariant -/

structure OcdInv (o : Ocd) : Prop where
  write : o.memWrite = true → o.state = .store ∧ memStore o.instr = true ∧
    o.memAddress = regOffset ||| (d o.instr).setWidth 9
  stop : o.stop = true → o.state = .exec ∧ instrExit o.instr = true

theorem OcdInv.memWrite (h : OcdInv o) (hs : o.state ≠ .store) : o.memWrite = false := by
  cases hw : o.memWrite with
  | false => rfl
  | true => exact absurd (h.write hw).1 hs

theorem OcdInv.running (h : OcdInv o) (hs : o.state ≠ .exec) : o.stop = false := by
  cases hstop : o.stop with
  | false => rfl
  | true => exact absurd (h.stop hstop).1 hs

/-- Where nothing is written and the unit has not stopped there is nothing to show. -/
theorem ocdInv_idle (hwrite : o.memWrite = false) (hstop : o.stop = false) : OcdInv o := by
  constructor
  · intro h
    exact absurd (hwrite.symm.trans h) nofun
  · intro h
    exact absurd (hstop.symm.trans h) nofun

/-- Outside of EXEC and STORE nothing is written and the unit runs, and so it does after a task
    that leaves both alone. -/
theorem OcdInv.between {o' : Ocd} (h : OcdInv o) (hstore : o.state ≠ .store)
    (hexec : o.state ≠ .exec) (hwrite : o'.memWrite = o.memWrite) (hstop : o'.stop = o.stop) :
    OcdInv o' :=
  ocdInv_idle (hwrite.trans (h.memWrite hstore)) (hstop.trans (h.running hexec))

theorem ocdInv_reset (o : Ocd) : OcdInv (resetOcd o) := ocdInv_idle rfl rfl

theorem execWait_exit {w : Word} (h : instrExit w = true) (i : OcdIn) : execWait w i = true := by
  unfold execWait
  rw [h, Bool.or_true]

theorem ocdInv_exec (h : OcdInv o) (hs : o.state = .exec) (i : OcdIn) (memReaddata : Word) :
    OcdInv (doExec o i memReaddata) := by
  have hwrite : o.memWrite = false := h.memWrite (by rw [hs]; decide)
  constructor
  · intro hw
    -- the strobe rises only where the unit goes on to STORE
    have hrise : (!execWait o.instr i && memStore o.instr) = true := by
      simpa [doExec, hwrite] using hw
    obtain ⟨hgo, hstore⟩ := Bool.and_eq_true_iff.mp hrise
    have hgo' : execWait o.instr i = false := by simpa using hgo
    refine ⟨?_, hstore, ?_⟩
    · simp [doExec, hgo']
    · simp [doExec, hgo']
  · intro hstop
    have hexit : instrExit o.instr = true := by
      by_cases hex : instrExit o.instr = true
      · exact hex
      · have hold : o.stop = true := by simpa [doExec, hex] using hstop
        exact (h.stop hold).2
    refine ⟨?_, hexit⟩
    simp [doExec, execWait_exit hexit i]

/-- **One clock keeps the invariant**, whatever the memory shows and the CPU does. -/
theorem ocdInv_tick (h : OcdInv o) (i : OcdIn) (memReaddata : Word) :
    OcdInv (o.tick i memReaddata) := by
  unfold Ocd.tick
  cases hs : o.state with
  | fetch => exact h.between (by rw [hs]; decide) (by rw [hs]; decide) rfl rfl
  | load => exact h.between (by rw [hs]; decide) (by rw [hs]; decide) rfl rfl
  | exec => exact ocdInv_exec h hs i memReaddata
  | execStore => exact h
  | store =>
    have hrun := h.running (by rw [hs]; decide)
    exact ocdInv_idle rfl hrun
  | storeFetch => exact h.between (by rw [hs]; decide) (by rw [hs]; decide) rfl rfl

/-- **A unit that has stopped does not move.** -/
theorem rest_tick (h : OcdInv o) (hstop : o.stop = true) (i : OcdIn) (memReaddata : Word) :
    o.tick i memReaddata = o := by
  obtain ⟨hs, hexit⟩ := h.stop hstop
  have hmnem : mnem o.instr = some .exit := by
    rw [mnem_eq_some]
    exact eq_of_beq hexit
  obtain ⟨en, stop, dout, readyN, hold, intr, nmi, reset, memAddress, memWrite, memWritedata,
    state, instr, pc, nextPc, cmpr⟩ := o
  dsimp only at hs hstop hmnem
  subst hs hstop
  simp only [Ocd.tick, doExec, execWait, wires, hmnem]
  simp

/-! ## 3. Runs -/

/-- With it, a unit that has stopped is not being reset. -/
structure TopInv (x : OcdTop) : Prop where
  ocd : OcdInv x.ocd
  rst : x.rst = true → x.ocd.stop = false

theorem topInv_initial (h : x.Initial) : TopInv x := by
  obtain ⟨o, ho⟩ := h
  constructor
  · rw [ho]
    exact ocdInv_reset o
  · intro _
    rw [ho]
    rfl

theorem topInv_step (h : TopInv x) (e : OcdEvent) : TopInv (x.step e) := by
  cases e with
  | rst level =>
    -- `rst` rises, or nothing happens to the unit
    by_cases hrise : (level && !x.rst) = true
    · have hocd : (x.step (.rst level)).ocd = resetOcd x.ocd := if_pos hrise
      refine ⟨?_, fun _ => ?_⟩
      · rw [hocd]
        exact ocdInv_reset x.ocd
      · rw [hocd]
        rfl
    · have hocd : (x.step (.rst level)).ocd = x.ocd := if_neg hrise
      refine ⟨?_, fun hhigh => ?_⟩
      · rw [hocd]
        exact h.ocd
      · have hlevel : level = true := hhigh
        rw [hocd]
        refine h.rst ?_
        simpa [hlevel] using hrise
  | clk i memReaddata s1 =>
    by_cases hrst : x.rst = true
    · have hocd : (x.step (.clk i memReaddata s1)).ocd = resetOcd x.ocd := if_pos hrst
      refine ⟨?_, fun _ => ?_⟩
      · rw [hocd]
        exact ocdInv_reset x.ocd
      · rw [hocd]
        rfl
    · have hocd : (x.step (.clk i memReaddata s1)).ocd = x.ocd.tick i memReaddata := if_neg hrst
      refine ⟨?_, fun hhigh => absurd hhigh hrst⟩
      rw [hocd]
      exact ocdInv_tick h.ocd i memReaddata

theorem topInv_reach (h : Reach OcdTop.Initial OcdTop.Step x) : TopInv x := by
  have hinit : ∀ s, OcdTop.Initial s → TopInv s := fun s hs => topInv_initial hs
  refine Reach.invariant hinit (fun s e t hs ht => ?_) h
  rw [ht]
  exact topInv_step hs e

/-- The words after an event: port s1 writes, and the unit where its strobe is up. -/
theorem step_words (x : OcdTop) (e : OcdEvent) (a : BitVec 9)
    (h : x.ocd.memWrite = true → a ≠ x.ocd.memAddress) :
    (x.step e).mem.words a = e.s1.write x.mem.words a := by
  cases e with
  | rst level => rfl
  | clk i memReaddata s1 =>
    unfold OcdTop.step OcdMem.edge PortS1.write
    cases hw : x.ocd.memWrite with
    | false => rfl
    | true =>
      dsimp only
      rw [if_pos rfl, Function.update_of_ne (h hw)]
      rfl

/-- At rest an event other than a reset moves nothing but what the supervisor writes. -/
theorem rest_step (h : TopInv x) (hstop : x.ocd.stop = true) {e : OcdEvent}
    (he : e ≠ .rst true) : (x.step e).ocd = x.ocd ∧
      ∀ a, (x.step e).mem.words a = e.s1.write x.mem.words a := by
  constructor
  · cases e with
    | rst level =>
      cases level with
      | true => exact absurd rfl he
      | false => rfl
    | clk i memReaddata s1 =>
      have hlow : x.rst = false := by
        cases hrst : x.rst with
        | false => rfl
        | true => exact absurd (hstop.symm.trans (h.rst hrst)) nofun
      unfold OcdTop.step
      rw [hlow]
      exact rest_tick h.ocd hstop i memReaddata
  · intro a
    refine step_words x e a fun hw => ?_
    have hidle : x.ocd.memWrite = false := h.ocd.memWrite (by rw [(h.ocd.stop hstop).1]; decide)
    exact absurd (hidle.symm.trans hw) nofun

theorem rest_run {es : List OcdEvent} (h : TopInv x) (hstop : x.ocd.stop = true)
    (hrun : Path OcdTop.Step x es y) (hes : .rst true ∉ es) : y.ocd = x.ocd ∧
      ∀ a, (∀ e ∈ es, e.s1 a = none) → y.mem.words a = x.mem.words a := by
  induction hrun with
  | nil s => exact ⟨rfl, fun _ _ => rfl⟩
  | @cons s t u e es ht hrun ih =>
    rw [ht] at ih
    obtain ⟨he, hes⟩ := not_or.mp (mt List.mem_cons.mpr hes)
    obtain ⟨hocd, hwords⟩ := rest_step h hstop (Ne.symm he)
    obtain ⟨hocd', hwords'⟩ := ih (topInv_step h e) (by rw [hocd]; exact hstop) hes
    refine ⟨hocd'.trans hocd, fun a ha => ?_⟩
    obtain ⟨hnone, ha⟩ := List.forall_mem_cons.mp ha
    rw [hwords' a ha, hwords a, PortS1.write, hnone]
    rfl

/-- **The unit writes nothing but its data registers, and at rest it stays as it is.** In every
    state of every run: the write strobe is up only in STORE of a storing instruction, on the
    register it names, and every other word is what the supervisor makes of it. Where `stop` is
    up, which `ocd_busywait` waits for, the unit is in EXEC of an EXIT, and until the next `rst`
    none of its registers and outputs changes, nor does what `ocd_get_reg` returns of a register
    that the supervisor does not write itself. -/
theorem ocd_rests (h : Reach OcdTop.Initial OcdTop.Step x) :
    (x.ocd.memWrite = true → x.ocd.state = .store ∧ memStore x.ocd.instr = true ∧
      x.ocd.memAddress = regOffset ||| (d x.ocd.instr).setWidth 9) ∧
    (∀ e a, (∀ r : BitVec 4, a ≠ regOffset ||| r.setWidth 9) →
      (x.step e).mem.words a = e.s1.write x.mem.words a) ∧
    (x.ocd.stop = true → x.ocd.state = .exec ∧ instrExit x.ocd.instr = true ∧
      x.ocd.memWrite = false ∧
      ∀ es y, Path OcdTop.Step x es y → .rst true ∉ es → y.ocd = x.ocd ∧
        ∀ id, (∀ e ∈ es, e.s1 (ocdRegs id) = none) →
          ocdGetReg id y.arch = ocdGetReg id x.arch) := by
  have hinv := topInv_reach h
  refine ⟨hinv.ocd.write, fun e a ha => ?_, fun hstop => ?_⟩
  · refine step_words x e a fun hw => ?_
    rw [(hinv.ocd.write hw).2.2]
    exact ha _
  · obtain ⟨hs, hexit⟩ := hinv.ocd.stop hstop
    refine ⟨hs, hexit, hinv.ocd.memWrite (by rw [hs]; decide), fun es y hrun hes => ?_⟩
    obtain ⟨hocd, hwords⟩ := rest_run hinv hstop hrun hes
    exact ⟨hocd, fun id hid => hwords (ocdRegs id) hid⟩

theorem path_foldl (x : OcdTop) (es : List OcdEvent) :
    Path OcdTop.Step x es (es.foldl OcdTop.step x) := by
  induction es generalizing x with
  | nil => exact .nil x
  | cons e es ih => exact .cons rfl (ih (x.step e))

/-- Five clocks after a reset the unit rests on an EXIT at address 0. -/
theorem ocd_rests_exit : ∃ x : OcdTop, x.ocd.stop = true ∧ x.ocd.memWrite = false ∧
    ∀ es y, Path OcdTop.Step x es y → .rst true ∉ es → y.ocd = x.ocd := by
  have hinit : OcdTop.Initial ⟨⟨resetOcd default, default⟩, false⟩ := ⟨default, rfl⟩
  have hreach := (path_foldl _ (List.replicate 5 (.clk default 0 fun _ => none))).reach
    (.init hinit)
  have hstop : ((List.replicate 5 (.clk default 0 fun _ => none)).foldl OcdTop.step
      ⟨⟨resetOcd default, default⟩, false⟩).ocd.stop = true := by decide
  obtain ⟨-, -, hrest⟩ := ocd_rests hreach
  obtain ⟨-, -, hidle, hkeep⟩ := hrest hstop
  exact ⟨_, hstop, hidle, fun es y hrun hes => (hkeep es y hrun hes).1⟩

end LsePc.Supervisor
