/-
  File:      LsePc/Supervisor/Led.lean
  Subject:   The LED of the supervisor (led.c), as the CPU sees it.

  The LED is the one device the supervisor serves alone. Its register is in the device list of
  the `struct sv`, and only an OUT of the CPU changes it.

  * `Led`: the devices of the supervisor are the LED with this register;
  * `LedServes`: an access to the LED, with the word the CPU gets;
  * `busy_led`: what the CPU and the main loop make of it between two host commands;
    `serve_led`: no host command touches it.
-/
import LsePc.Supervisor.Guest

namespace LsePc.Supervisor

open LsePc.Bridge

/-- The LED with its register is the one device. -/
def Led (g : Guest) (reg : Byte) : Prop := g.m.sv.dev = [{ devLed with data := reg }]

/-- An IN gets the register, an OUT sets it. -/
inductive LedServes : Byte → Access × Option Word → Byte → Prop where
  | read {reg : Byte} {a : Access} (h : a.wr = false) :
      LedServes reg (a, some (reg.setWidth 16)) reg
  | write {reg : Byte} {a : Access} (w : Option Word) (h : a.wr = true) :
      LedServes reg (a, w) (a.data.setWidth 8)

section
variable {m : Machine} {g g' : Guest} {a : Access} {reg : Byte}

@[simp] theorem settle_m (g : Guest) (m : Machine) : (g.settle m).m = m := by
  unfold Guest.settle
  split
  · rfl
  · split <;> rfl

/-- An IN from the LED: `ocd_prgm_write_io` drives the register. -/
theorem svIord_reg (hled : m.sv.dev = [{ devLed with data := reg }])
    (hp : m.sv.ioaddr = ledPort) :
    (svIord m).2.ocd.drives = some (reg.setWidth 16) ∧ (svIord m).2.sv.dev = m.sv.dev := by
  have hdev : devRead m.sv.dev m.sv.ioaddr = some (reg.setWidth 16) := by
    rw [hled, devRead, findDev, List.find?_cons, led_covers]
    simp only [hp, decide_true, Option.map_some, devLed]
    rfl
  rw [svIord_some hdev]
  refine ⟨?_, svCont_sv _⟩
  simp only [svCont]
  rw [Machine.setStatus_ocd, Machine.run_ocd, writeIo_drives]
  rfl

/-- An OUT to the LED. -/
theorem svIowr_reg (hled : m.sv.dev = [{ devLed with data := reg }])
    (hp : m.sv.ioaddr = ledPort) :
    (svIowr m).2.sv.dev = [{ devLed with data := (ocdGetReg 3 m.ocd).setWidth 8 }] := by
  have hdev : devWrite m.sv.dev m.sv.ioaddr (ocdGetReg 3 m.ocd) = some [{ devLed with
      data := (ocdGetReg 3 m.ocd).setWidth 8 }] := by
    rw [hled, devWrite, led_covers, if_pos (by simpa using hp)]
    simp only [devLed, hp]
    rfl
  rw [svIowr_some hdev, svCont_sv]

/-- The word an access is finished with is the one the unit then drives. -/
theorem settle_drives {w : Option Word} (hpend : g.pending = some a)
    (h : (g.settle m).finished = g.finished ++ [(a, w)]) : w = m.ocd.drives := by
  have hsame : g.finished ≠ g.finished ++ [(a, w)] := fun he =>
    absurd (List.self_eq_append_right.mp he) (List.cons_ne_nil _ _)
  unfold Guest.settle at h
  split at h
  · have hlast := List.append_cancel_left h
    rw [hpend] at hlast
    exact (Prod.mk.inj (List.cons.inj hlast).1).2.symm
  · split at h
    · exact absurd h hsame
    · exact absurd h hsame

/-- **A poll of a trapped access**: the LED is served, and no other access touches it. -/
theorem poll_led (hs : Sane g) (h : At g (.trapped a)) (hpins : ∀ k, Shows (g.m.bus k) a)
    (hled : Led g reg) :
    (a.port ≠ ledPort ∧ Led (g.settle g.m.poll) reg) ∨
      ∃ w reg', a.port = ledPort ∧ (g.settle g.m.poll).finished = g.finished ++ [(a, w)] ∧
        LedServes reg (a, w) reg' ∧ Led (g.settle g.m.poll) reg' := by
  have hserved := (poll_trapped hs h hpins).2
  unfold Led
  rw [settle_m]
  cases h with
  | trapped hst hocd hport hwr hpend =>
    have hpoll : ∀ {r}, svIobreak g.m = some r → g.m.poll = r.2 := by
      intro r hr
      rw [Machine.poll, hocd, Option.get_of_eq_some _ hr]
      rfl
    cases ha : a.wr with
    | true =>
      have hne : ocdGetReg 2 g.m.ocd ≠ 0 := by
        rw [hwr, ha]
        decide
      obtain ⟨τ, h3, -, heq⟩ := svIobreak_out g.m hst hne
      rcases hserved with ⟨hp, -⟩ | ⟨hp, -, w, hw⟩
      · refine .inl ⟨hp, ?_⟩
        rw [hpoll heq, svIowr_other (m := g.m.trapped.waited ocdPrgmReadIo τ) hled
          fun h => hp (hport.symm.trans h)]
        exact hled
      · refine .inr ⟨w, _, hp, hw, .write w ha, ?_⟩
        rw [hpoll heq, svIowr_reg (m := g.m.trapped.waited ocdPrgmReadIo τ) hled
          (hport.trans hp)]
        exact congrArg (fun v : Word => [{ devLed with data := v.setWidth 8 }])
          (h3.trans ((hpins 0).data ha))
    | false =>
      have hz : ocdGetReg 2 g.m.ocd = 0 := by
        rw [hwr, ha]
        decide
      have heq := hpoll (svIobreak_in g.m hst hz)
      rcases hserved with ⟨hp, -⟩ | ⟨hp, -, w, hw⟩
      · refine .inl ⟨hp, ?_⟩
        rw [heq, svIord_other (m := g.m.trapped) hled fun h => hp (hport.symm.trans h)]
        exact hled
      · obtain ⟨hdrives, hdev⟩ := svIord_reg (m := g.m.trapped) hled (hport.trans hp)
        obtain rfl : w = some (reg.setWidth 16) := by
          rw [settle_drives hpend hw, heq]
          exact hdrives
        refine .inr ⟨_, reg, hp, hw, .read ha, ?_⟩
        rw [heq]
        exact hdev.trans hled

theorem poll_led_on {bus : Nat → OcdIn} (hs : Sane g) (h : At g (.trapped a))
    (hpins : ∀ k, Shows (bus k) a) (hled : Led g reg) :
    (a.port ≠ ledPort ∧ Led (g.settle (g.m.pollOn bus)) reg) ∨
      ∃ w reg', a.port = ledPort ∧
        (g.settle (g.m.pollOn bus)).finished = g.finished ++ [(a, w)] ∧
        LedServes reg (a, w) reg' ∧ Led (g.settle (g.m.pollOn bus)) reg' := by
  rw [settle_pollOn]
  exact poll_led (hs.setPins fun _ => bus) (h.setPins fun _ => bus) hpins hled

/-- **Between two host commands** an access to the LED may be served. -/
theorem busy_led (hs : Sane g) (h : Live g) (hled : Led g reg) (hb : Busy g g') :
    (g'.finished = g.finished ∧ Led g' reg) ∨
      ∃ a w reg', a.port = ledPort ∧ g'.finished = g.finished ++ [(a, w)] ∧
        LedServes reg (a, w) reg' ∧ Led g' reg' := by
  obtain ⟨ph, hat, -⟩ := h
  cases hb with
  | trap => exact .inl ⟨rfl, hled⟩
  | poll hpins =>
    by_cases htr : ∃ a, ph = .trapped a
    · obtain ⟨a, rfl⟩ := htr
      have hpend : g.pending = some a := by
        cases hat with
        | trapped _ _ _ _ hpend => exact hpend
      have hp := hpins a hpend
      rcases poll_led_on hs hat hp hled with ⟨hne, hled'⟩ | ⟨w, reg', h⟩
      · obtain ⟨-, ⟨-, -, hfin⟩ | ⟨heq, -⟩⟩ := poll_trapped_on hs hat hp
        · exact .inl ⟨hfin, hled'⟩
        · exact absurd heq hne
      · exact .inr ⟨a, w, reg', h⟩
    · rw [poll_other_on _ hat fun a ha => htr ⟨a, ha⟩]
      exact .inl ⟨rfl, hled⟩

/-! ## 2. The commands -/

/-- The commands of the host leave the devices of the supervisor as they are. -/
theorem guestApi_dev (g : Guest) : (guestApi.start g).2.m.sv.dev = g.m.sv.dev ∧
    (guestApi.stop g).2.m.sv.dev = g.m.sv.dev ∧ (guestApi.cont g).2.m.sv.dev = g.m.sv.dev := by
  refine ⟨?_, ?_, ?_⟩
  · refine (congrArg (fun m : Machine => m.sv.dev) (settle_m g _)).trans ?_
    show (svStart g.m).2.sv.dev = _
    unfold svStart
    split
    · rfl
    · rfl
  · refine (congrArg (fun m : Machine => m.sv.dev) (settle_m g _)).trans ?_
    obtain ⟨τ, -, heq⟩ := svStop_eq g.m
    have hm : machineApi.stop g.m = (0, (g.m.waited ocdPrgmReset τ).setStatus .stop) :=
      Option.get_of_eq_some _ heq
    rw [hm]
    rfl
  · exact (congrArg (fun m : Machine => m.sv.dev) (settle_m g _)).trans (svCont_sv g.m)

end

end LsePc.Supervisor
