/-
  File:      LsePc/Supervisor/Guest.lean
  Subject:   The accesses of the CPU, as the CPU sees them.

  An access is under way from its trap to the routine that lets the CPU go on; where that is
  ocd_prgm_write_io the CPU gets a word. The supervisor serves its LED port alone, and keeps
  every other access for the host.

  * `Guest`: a machine with the accesses trapped so far and those finished, with their words;
  * `Guest.settle`: what a function of the supervisor finishes; `guestApi`: supervisor.c with
    this account; `Busy`: what happens between two host commands;
  * `Phase`, `At`: where the one access under way stands;
  * `busy_step`, `at_start`, `at_stop`, `at_cont`: how it gets there.
-/
import LsePc.Supervisor.MainLoop

namespace LsePc.Supervisor

open LsePc.Bridge

/-! ## 1. The account -/

/-- `finished` has the word each access was finished with, if the routine drove one. -/
structure Guest where
  m : Machine
  trapped : List Access
  pending : Option Access
  finished : List (Access × Option Word)

/-- What the routines do to the CPU that ran on the way from `m` to `m'`. -/
def effects (m m' : Machine) : List Effect :=
  (m'.out.drop m.out.length).filterMap fun
    | .run prog => some (effect prog)
    | _ => none

namespace Guest

/-- The supervisor has taken the machine to `m`. -/
def settle (g : Guest) (m : Machine) : Guest :=
  if .releases ∈ effects g.m m then
    { g with
      m := m
      pending := none
      finished := g.finished ++ g.pending.toList.map fun a => (a, m.ocd.drives) }
  else if .resets ∈ effects g.m m then { g with m := m, pending := none }
  else { g with m := m }

end Guest

/-- A function of supervisor.c, with what it finishes. -/
def onGuest (f : Machine → Nat × Machine) (g : Guest) : Nat × Guest :=
  ((f g.m).1, g.settle (f g.m).2)

def guestApi : SvApi Guest where
  sv g := g.m.sv
  setSv v g := { g with m := machineApi.setSv v g.m }
  sv_setSv _ _ := rfl
  stop := onGuest machineApi.stop
  start := onGuest machineApi.start
  brk := onGuest machineApi.brk
  cont := onGuest machineApi.cont
  getRegs := onGuest machineApi.getRegs

/-- Between two host commands: the CPU traps, or the main loop polls. In either the pins are
    those of that time, and a CPU held in an access shows it on them. -/
inductive Busy : Guest → Guest → Prop where
  | trap {g : Guest} {a : Access} {bus : Nat → OcdIn} {τ : Arch}
      (hrun : ocdIsrunning g.m.ocd = true) (hpins : Traps g.m.ocd bus a)
      (hexit : ocdBusywait bus g.m.ocd = some τ) :
      Busy g { g with
        m := { g.m with ocd := τ }, trapped := g.trapped ++ [a], pending := some a }
  | poll {g : Guest} {bus : Nat → OcdIn}
      (hpins : ∀ a, g.pending = some a → ∀ k, Shows (bus k) a) : Busy g (g.settle (g.m.pollOn bus))

/-- After `sv_init`, with no access yet. -/
def Guest.Init (g : Guest) : Prop :=
  ∃ m₀, svInit m₀ = some g.m ∧ g.trapped = [] ∧ g.pending = none ∧ g.finished = []

section Settle

variable {g : Guest} {m : Machine} {os : List Out}

theorem effects_eq {m m' : Machine} (h : m'.out = m.out ++ os) :
    effects m m' = os.filterMap fun
      | .run prog => some (effect prog)
      | _ => none := by
  rw [effects, h, List.drop_left]

theorem settle_releases (h : .releases ∈ effects g.m m) : g.settle m =
    { g with
      m := m
      pending := none
      finished := g.finished ++ g.pending.toList.map fun a => (a, m.ocd.drives) } :=
  if_pos h

theorem settle_resets (h : .releases ∉ effects g.m m) (h' : .resets ∈ effects g.m m) :
    g.settle m = { g with m := m, pending := none } := by
  rw [Guest.settle, if_neg h, if_pos h']

theorem settle_keeps (h : .releases ∉ effects g.m m) (h' : .resets ∉ effects g.m m) :
    g.settle m = { g with m := m } := by
  rw [Guest.settle, if_neg h, if_neg h']

/-- Nothing has happened. -/
theorem settle_self : g.settle g.m = g :=
  settle_keeps (by simp [effects]) (by simp [effects])

/-- The pins are no part of the account. -/
def Guest.setPins (pins : Nat → Nat → OcdIn) (g : Guest) : Guest :=
  { g with m := { g.m with pins := pins } }

theorem settle_setPins (g : Guest) (m : Machine) (p q : Nat → Nat → OcdIn) :
    g.settle { m with pins := p } = ((g.setPins q).settle m).setPins p := by
  have heff : effects g.m { m with pins := p } = effects (g.setPins q).m m := rfl
  unfold Guest.settle
  rw [heff]
  split
  · rfl
  · split <;> rfl

theorem settle_pollOn (g : Guest) (bus : Nat → OcdIn) : g.settle (g.m.pollOn bus) =
    ((g.setPins fun _ => bus).settle (g.setPins fun _ => bus).m.poll).setPins g.m.pins :=
  settle_setPins g _ _ _

end Settle

/-! ## 2. Where the access stands -/

/-- The LED is the only device the supervisor registers. -/
def ledPort : Word := 0x10

theorem led_covers (reg : Byte) (p : Word) :
    Dev.covers { devLed with data := reg } p = decide (p = ledPort) := by
  show decide ((0x10 : Word).toNat ≤ p.toNat ∧ p.toNat < (0x10 : Word).toNat + (1 : Word).toNat) =
    decide (p = 0x10)
  rw [decide_eq_decide]
  constructor
  · intro h
    obtain ⟨h1, h2⟩ := h
    bv_omega
  · intro he
    obtain rfl := he
    decide

/-- Stopped; running; trapped, the supervisor has not looked; recorded for the host. -/
inductive Phase where
  | stopped
  | running
  | trapped (a : Access)
  | held (a : Access)
  deriving DecidableEq

inductive At (g : Guest) : Phase → Prop where
  | stopped (hst : g.m.sv.status = .stop) (hocd : ocdIsrunning g.m.ocd = false)
      (hpend : g.pending = none) : At g .stopped
  | running (hst : g.m.sv.status = .running) (hocd : Resuming g.m.ocd)
      (hpend : g.pending = none) : At g .running
  | trapped {a : Access} (hst : g.m.sv.status = .running) (hocd : ocdIsrunning g.m.ocd = false)
      (hport : ocdGetReg 1 g.m.ocd = a.port) (hwr : ocdGetReg 2 g.m.ocd = Arch.level a.wr)
      (hpend : g.pending = some a) : At g (.trapped a)
  | held {a : Access} (hst : g.m.sv.status = if a.wr then .iowr else .iord)
      (hocd : ocdIsrunning g.m.ocd = false) (hport : g.m.sv.ioaddr = a.port)
      (hdata : a.wr = true → g.m.sv.iodata = a.data) (hled : a.port ≠ ledPort)
      (hpend : g.pending = some a) : At g (.held a)

/-- What the supervisor has recorded of an access. -/
theorem At.recorded {g : Guest} {a : Access} (h : At g (.held a)) : g.m.sv.ioaddr = a.port ∧
    (a.wr = true → g.m.sv.iodata = a.data) ∧ a.port ≠ ledPort ∧ g.pending = some a := by
  cases h with
  | held hst hocd hport hdata hled hpend => exact ⟨hport, hdata, hled, hpend⟩

/-- What holds in every phase: the LED is the supervisor's one device, and the accesses are
    finished in the order they are trapped in. -/
structure Sane (g : Guest) : Prop where
  led : ∃ reg, g.m.sv.dev = [{ devLed with data := reg }]
  order : g.trapped = g.finished.map Prod.fst ++ g.pending.toList

section Pins

variable {g : Guest} (p : Nat → Nat → OcdIn)

theorem At.setPins {ph : Phase} (h : At g ph) : At (g.setPins p) ph := by
  cases h with
  | stopped h1 h2 h3 => exact .stopped h1 h2 h3
  | running h1 h2 h3 => exact .running h1 h2 h3
  | trapped h1 h2 h3 h4 h5 => exact .trapped h1 h2 h3 h4 h5
  | held h1 h2 h3 h4 h5 h6 => exact .held h1 h2 h3 h4 h5 h6

theorem Sane.setPins (h : Sane g) : Sane (g.setPins p) := ⟨h.led, h.order⟩

end Pins

/-! ## 3. The poll -/

section Poll

variable {m : Machine} {reg : Byte}

/-- The port of a trapped access that is not the LED's is left to the host. -/
theorem svIowr_other (hled : m.sv.dev = [{ devLed with data := reg }])
    (hp : m.sv.ioaddr ≠ ledPort) : (svIowr m).2 =
      ({ m with sv := { m.sv with iodata := ocdGetReg 3 m.ocd } } : Machine).setStatus .iowr := by
  refine svIowr_none ?_
  rw [hled, devWrite, led_covers, if_neg (by simpa using hp)]
  rfl

theorem svIord_other (hled : m.sv.dev = [{ devLed with data := reg }])
    (hp : m.sv.ioaddr ≠ ledPort) : (svIord m).2 = m.setStatus .iord := by
  refine svIord_none ?_
  rw [hled, devRead, findDev, List.find?_cons, led_covers]
  simp [hp]

/-- A machine that has let the CPU go on, and what it has done for that. -/
structure Resumed (m m' : Machine) (os : List Out) : Prop where
  status : m'.sv.status = .running
  ocd : Resuming m'.ocd
  led : ∃ reg, m'.sv.dev = [{ devLed with data := reg }]
  out : m'.out = m.out ++ os
  releases : ∃ prog, .run prog ∈ os ∧ effect prog = .releases

theorem svCont_sv (m : Machine) : (svCont m).2.sv.dev = m.sv.dev := by
  rw [svCont]
  split <;> rfl

/-- `sv_cont` of a recorded access. -/
theorem svCont_resumed (hled : m.sv.dev = [{ devLed with data := reg }])
    (hst : m.sv.status = .iowr ∨ m.sv.status = .iord) : ∃ os, Resumed m (svCont m).2 os := by
  obtain ⟨prog, heff, hres, hrun, hout⟩ := svCont_resumes m (.inr hst)
  exact ⟨_, hrun, hres, ⟨reg, (svCont_sv m).trans hled⟩, hout, prog, by simp, heff⟩

theorem Resumed.trans {m' m'' : Machine} {os os' : List Out} (hout : m'.out = m.out ++ os)
    (h : Resumed m' m'' os') : Resumed m m'' (os ++ os') := by
  obtain ⟨prog, hmem, heff⟩ := h.releases
  refine ⟨h.status, h.ocd, h.led, ?_, prog, List.mem_append_right _ hmem, heff⟩
  rw [h.out, hout, List.append_assoc]

theorem svIowr_led (hled : m.sv.dev = [{ devLed with data := reg }])
    (hp : m.sv.ioaddr = ledPort) : ∃ os, Resumed m (svIowr m).2 os := by
  have hdev : devWrite m.sv.dev m.sv.ioaddr (ocdGetReg 3 m.ocd) = some [{ devLed with
      data := ledWrite reg (devLed.ioaddr - m.sv.ioaddr) (ocdGetReg 3 m.ocd) }] := by
    rw [hled, devWrite, led_covers, if_pos (by simpa using hp)]
    rfl
  rw [svIowr_some hdev]
  obtain ⟨os, h⟩ := svCont_resumed (m := { m with
    sv := { m.sv with iodata := _, status := .iowr, dev := [_] }
    out := m.out ++ [.status .iowr m.sv.ioaddr _] ++ [.dev m.sv.ioaddr] }) rfl (.inl rfl)
  exact ⟨_, h.trans (List.append_assoc ..)⟩

theorem svIord_led (hled : m.sv.dev = [{ devLed with data := reg }])
    (hp : m.sv.ioaddr = ledPort) : ∃ os, Resumed m (svIord m).2 os := by
  have hdev : devRead m.sv.dev m.sv.ioaddr =
      some (ledRead reg (devLed.ioaddr - m.sv.ioaddr)) := by
    rw [hled, devRead, findDev, List.find?_cons, led_covers]
    simp [hp]
    rfl
  rw [svIord_some hdev]
  obtain ⟨os, h⟩ := svCont_resumed (m := { m with
    sv := { m.sv with status := .iord, iodata := _ }
    out := m.out ++ [.status .iord m.sv.ioaddr m.sv.iodata] ++ [.dev m.sv.ioaddr] }) hled (.inr rfl)
  exact ⟨_, h.trans (List.append_assoc ..)⟩

end Poll

section Steps

variable {g g' : Guest} {m : Machine} {os : List Out} {a : Access}

/-- The CPU goes on, and the access it was held in is finished. -/
theorem settle_resumed (hs : Sane g) (h : Resumed g.m m os) :
    (g.settle m).m = m ∧ Sane (g.settle m) ∧ At (g.settle m) .running ∧
      (g.settle m).finished = g.finished ++ g.pending.toList.map fun a => (a, m.ocd.drives) := by
  obtain ⟨prog, hmem, heff⟩ := h.releases
  have hrel : .releases ∈ effects g.m m := by
    rw [effects_eq h.out, List.mem_filterMap]
    exact ⟨.run prog, hmem, by simp [heff]⟩
  rw [settle_releases hrel]
  refine ⟨rfl, ⟨h.led, ?_⟩, .running h.status h.ocd rfl, rfl⟩
  simp [hs.order, Function.comp_def]

/-- The access stays where it is. -/
theorem settle_kept (hout : m.out = g.m.out ++ os)
    (hos : ∀ prog, .run prog ∈ os → effect prog = .keeps) : g.settle m = { g with m := m } := by
  have hall : ∀ e ∈ effects g.m m, e = .keeps := by
    intro e he
    rw [effects_eq hout, List.mem_filterMap] at he
    obtain ⟨o, ho, heq⟩ := he
    cases o with
    | run prog =>
      obtain rfl := Option.some.inj heq
      exact hos prog ho
    | waited | status | dev => cases heq
  exact settle_keeps (fun h => by cases hall _ h) fun h => by cases hall _ h

/-- **A poll of a trapped access**: the LED is served, everything else is kept for the host,
    with its port, direction and data. -/
theorem poll_trapped (hs : Sane g) (h : At g (.trapped a)) (hpins : ∀ k, Shows (g.m.bus k) a) :
    Sane (g.settle g.m.poll) ∧
      ((a.port ≠ ledPort ∧ At (g.settle g.m.poll) (.held a) ∧
          (g.settle g.m.poll).finished = g.finished) ∨
        (a.port = ledPort ∧ At (g.settle g.m.poll) .running ∧
          ∃ w, (g.settle g.m.poll).finished = g.finished ++ [(a, w)])) := by
  obtain ⟨reg, hled⟩ := hs.led
  cases h with
  | trapped hst hocd hport hwr hpend =>
    have hpoll : ∀ {r}, svIobreak g.m = some r → g.m.poll = r.2 := by
      intro r hr
      rw [Machine.poll, hocd, Option.get_of_eq_some _ hr]
      rfl
    have hserved : ∀ {m os}, Resumed g.m m os → a.port = ledPort → Sane (g.settle m) ∧
        ((a.port ≠ ledPort ∧ At (g.settle m) (.held a) ∧ (g.settle m).finished = g.finished) ∨
        (a.port = ledPort ∧ At (g.settle m) .running ∧
          ∃ w, (g.settle m).finished = g.finished ++ [(a, w)])) := by
      intro m os hr hp
      obtain ⟨-, hsane, hat, hfin⟩ := settle_resumed hs hr
      exact ⟨hsane, .inr ⟨hp, hat, _, by rw [hfin, hpend]; rfl⟩⟩
    cases ha : a.wr with
    | true =>
      have hne : ocdGetReg 2 g.m.ocd ≠ 0 := by
        rw [hwr, ha]
        decide
      obtain ⟨τ, h3, hτ, heq⟩ := svIobreak_out g.m hst hne
      rw [hpoll heq]
      have hdata : τ.reg 3 = a.data := h3.trans ((hpins 0).data ha)
      by_cases hp : a.port = ledPort
      · obtain ⟨os, hr⟩ := svIowr_led (m := g.m.trapped.waited ocdPrgmReadIo τ) hled
          (hport.trans hp)
        exact hserved (hr.trans rfl) hp
      · rw [svIowr_other (m := g.m.trapped.waited ocdPrgmReadIo τ) hled
          fun h => hp (hport.symm.trans h), settle_kept (List.append_assoc ..) (by simp)]
        exact ⟨⟨⟨reg, hled⟩, hs.order⟩, .inl ⟨hp, .held (by rw [ha]; rfl) hτ hport
          (fun _ => hdata) hp hpend, rfl⟩⟩
    | false =>
      have hz : ocdGetReg 2 g.m.ocd = 0 := by
        rw [hwr, ha]
        decide
      rw [hpoll (svIobreak_in g.m hst hz)]
      by_cases hp : a.port = ledPort
      · obtain ⟨os, hr⟩ := svIord_led (m := g.m.trapped) hled (hport.trans hp)
        have hout : g.m.trapped.out = g.m.out ++ [] := (List.append_nil _).symm
        exact hserved (hr.trans hout) hp
      · have hout : (g.m.trapped.setStatus .iord).out = g.m.out ++ _ := rfl
        rw [svIord_other (m := g.m.trapped) hled fun h => hp (hport.symm.trans h),
          settle_kept hout (by simp)]
        exact ⟨⟨⟨reg, hled⟩, hs.order⟩, .inl ⟨hp, .held (by rw [ha]; rfl) hocd hport
          (fun h => by simp [ha] at h) hp hpend, rfl⟩⟩

theorem poll_trapped_on {bus : Nat → OcdIn} (hs : Sane g) (h : At g (.trapped a))
    (hpins : ∀ k, Shows (bus k) a) :
    Sane (g.settle (g.m.pollOn bus)) ∧
      ((a.port ≠ ledPort ∧ At (g.settle (g.m.pollOn bus)) (.held a) ∧
          (g.settle (g.m.pollOn bus)).finished = g.finished) ∨
        (a.port = ledPort ∧ At (g.settle (g.m.pollOn bus)) .running ∧
          ∃ w, (g.settle (g.m.pollOn bus)).finished = g.finished ++ [(a, w)])) := by
  obtain ⟨hsane, hend⟩ := poll_trapped (hs.setPins fun _ => bus) (h.setPins fun _ => bus) hpins
  rw [settle_pollOn]
  exact ⟨hsane.setPins _, hend.imp (fun ⟨hp, hat, hfin⟩ => ⟨hp, hat.setPins _, hfin⟩)
    fun ⟨hp, hat, hfin⟩ => ⟨hp, hat.setPins _, hfin⟩⟩

/-- A poll of anything else does nothing. -/
theorem poll_other {ph : Phase} (h : At g ph) (hph : ∀ a, ph ≠ .trapped a) :
    g.settle g.m.poll = g := by
  have hother : g.m.sv.status ≠ .running → g.m.poll = g.m := by
    intro hne
    rw [Machine.poll, Option.get_of_eq_some _ (svIobreak_other g.m hne)]
    split <;> rfl
  have hpoll : g.m.poll = g.m := by
    cases h with
    | stopped hst => exact hother (by simp [hst])
    | running hst hocd => rw [Machine.poll, resuming_running hocd, if_pos rfl]
    | trapped => exact absurd rfl (hph _)
    | held hst => exact hother (by rw [hst]; split <;> decide)
  rw [hpoll, settle_self]

theorem poll_other_on {ph : Phase} (bus : Nat → OcdIn) (h : At g ph) (hph : ∀ a, ph ≠ .trapped a) :
    g.settle (g.m.pollOn bus) = g := by
  rw [settle_pollOn, poll_other (h.setPins fun _ => bus) hph]
  rfl

/-- Only a running CPU traps. -/
theorem trap_running {ph : Phase} (h : At g ph) (hrun : ocdIsrunning g.m.ocd = true)
    {bus : Nat → OcdIn} {τ : Arch} (hpins : Traps g.m.ocd bus a)
    (hexit : ocdBusywait bus g.m.ocd = some τ) : ph = .running ∧
      At { g with
        m := { g.m with ocd := τ }, trapped := g.trapped ++ [a], pending := some a }
        (.trapped a) := by
  cases h with
  | running hst hocd hpend =>
    obtain ⟨prog, σ, hp, hres, he⟩ := hocd
    rw [he] at hpins hexit
    obtain ⟨τ', hτ', hport, hwr⟩ := resumes_exits hp hres hpins
    obtain rfl : τ' = τ := Option.some.inj (hτ'.symm.trans hexit)
    exact ⟨rfl, .trapped hst (ocdBusywait_stops hexit) hport hwr rfl⟩
  | stopped hst hocd | trapped hst hocd | held hst hocd => simp [hocd] at hrun

/-! ### What happens between two commands -/

/-- The CPU has been started and not stopped since. -/
def Live (g : Guest) : Prop := ∃ ph, At g ph ∧ ph ≠ .stopped

/-- An access that waits for the host, like a stopped CPU, waits through everything else. -/
theorem busy_waits {ph : Phase} (h : At g ph) (hph : ph = .stopped ∨ ∃ a, ph = .held a)
    (hb : Busy g g') : g' = g := by
  cases hb with
  | trap hrun hpins hexit =>
    obtain ⟨rfl, -⟩ := trap_running h hrun hpins hexit
    rcases hph with h | ⟨a, h⟩ <;> cases h
  | poll =>
    refine poll_other_on _ h ?_
    intro a he
    obtain rfl := he
    rcases hph with h | ⟨a, h⟩ <;> cases h

/-- **Between two commands** the supervisor finishes accesses to its LED and no others. -/
theorem busy_live (hs : Sane g) (h : Live g) (hb : Busy g g') : Sane g' ∧ Live g' ∧
    (g'.finished = g.finished ∨
      ∃ a w, a.port = ledPort ∧ g'.finished = g.finished ++ [(a, w)]) := by
  obtain ⟨ph, hat, hph⟩ := h
  cases hb with
  | trap hrun hpins hexit =>
    obtain ⟨rfl, hat'⟩ := trap_running hat hrun hpins hexit
    cases hat with
    | running hst hocd hpend =>
      have horder := hs.order
      rw [hpend] at horder
      exact ⟨⟨hs.led, by simp [horder]⟩, ⟨_, hat', by simp⟩, .inl rfl⟩
  | poll hpins =>
    by_cases htr : ∃ a, ph = .trapped a
    · obtain ⟨a, rfl⟩ := htr
      have hpend : g.pending = some a := by
        cases hat with
        | trapped _ _ _ _ hpend => exact hpend
      obtain ⟨hsane, ⟨-, hat', hfin⟩ | ⟨hp, hat', w, hfin⟩⟩ :=
        poll_trapped_on hs hat (hpins a hpend)
      · exact ⟨hsane, ⟨_, hat', by simp⟩, .inl hfin⟩
      · exact ⟨hsane, ⟨_, hat', by simp⟩, .inr ⟨a, w, hp, hfin⟩⟩
    · rw [poll_other_on _ hat fun a ha => htr ⟨a, ha⟩]
      exact ⟨hs, ⟨ph, hat, hph⟩, .inl rfl⟩

/-! ### What the commands do -/

theorem at_stop (hs : Sane g) (h : At g .stopped) : Sane (guestApi.stop g).2 ∧
    At (guestApi.stop g).2 .stopped ∧ (guestApi.stop g).2.finished = g.finished := by
  cases h with
  | stopped hst hocd hpend =>
    obtain ⟨τ, hτ, heq⟩ := svStop_eq g.m
    have hm : machineApi.stop g.m = (0, (g.m.waited ocdPrgmReset τ).setStatus .stop) :=
      Option.get_of_eq_some _ heq
    have hout : ((g.m.waited ocdPrgmReset τ).setStatus .stop).out = g.m.out ++ _ :=
      List.append_assoc ..
    have heff := effects_eq hout
    simp only [guestApi, onGuest, hm]
    rw [settle_resets (by simp [heff]) (by simp [heff])]
    refine ⟨⟨hs.led, ?_⟩, .stopped rfl hτ rfl, rfl⟩
    simpa [hpend] using hs.order

theorem at_start (hs : Sane g) (h : At g .stopped) : Sane (guestApi.start g).2 ∧
    At (guestApi.start g).2 .running ∧ (guestApi.start g).2.finished = g.finished := by
  cases h with
  | stopped hst hocd hpend =>
    have hm : machineApi.start g.m = (0, (g.m.run ocdPrgmStart).setStatus .running) := by
      show svStart g.m = _
      rw [svStart, if_pos hst]
    have hres : Resumed g.m ((g.m.run ocdPrgmStart).setStatus .running) _ :=
      ⟨rfl, ⟨_, _, by decide, resumes_start, rfl⟩, hs.led, List.append_assoc .., ocdPrgmStart,
        by simp, effect_start⟩
    obtain ⟨-, hsane, hat, hfin⟩ := settle_resumed hs hres
    simp only [guestApi, onGuest, hm]
    exact ⟨hsane, hat, by simp [hfin, hpend]⟩

/-- **A cont of a recorded access finishes it**: an IN gets what the supervisor then holds as
    its I/O data. -/
theorem at_cont (hs : Sane g) (h : At g (.held a)) : Sane (guestApi.cont g).2 ∧
    At (guestApi.cont g).2 .running ∧ ∃ w, (a.wr = false → w = some g.m.sv.iodata) ∧
      (guestApi.cont g).2.finished = g.finished ++ [(a, w)] := by
  obtain ⟨reg, hled⟩ := hs.led
  cases h with
  | held hst hocd hport hdata hp hpend =>
    have hst' : g.m.sv.status = .iowr ∨ g.m.sv.status = .iord := by
      rw [hst]
      split <;> simp
    obtain ⟨os, hr⟩ := svCont_resumed hled hst'
    obtain ⟨-, hsane, hat, hfin⟩ := settle_resumed hs hr
    rw [hpend] at hfin
    refine ⟨hsane, hat, _, fun ha => ?_, hfin⟩
    rw [ha] at hst
    simp only [svCont, hst]
    exact writeIo_drives _

/-- The data for an IN. -/
theorem at_setIoData (hs : Sane g) (h : At g (.held a)) (ha : a.wr = false) (data : Word) :
    Sane (guestApi.setSv { g.m.sv with iodata := data } g) ∧
      At (guestApi.setSv { g.m.sv with iodata := data } g) (.held a) := by
  cases h with
  | held hst hocd hport hdata hp hpend =>
    exact ⟨⟨hs.led, hs.order⟩, .held hst hocd hport (fun h => by simp [ha] at h) hp hpend⟩

theorem guest_init (h : g.Init) : Sane g ∧ At g .stopped := by
  obtain ⟨m₀, hm, htr, hpend, hfin⟩ := h
  obtain ⟨τ, hτ, hinit⟩ := svInit_eq m₀
  have hg := Option.some.inj (hm.symm.trans hinit)
  refine ⟨⟨⟨0, by rw [hg]; rfl⟩, by simp [htr, hpend, hfin]⟩, .stopped ?_ ?_ hpend⟩
  · rw [hg]
    rfl
  · rw [hg]
    exact hτ

end Steps

end LsePc.Supervisor
