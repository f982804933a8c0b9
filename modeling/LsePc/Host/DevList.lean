/-
  File:      LsePc/Host/DevList.lean
  Subject:   The lists of devices, link by link (dev.c of the supervisor and of the monitor).

  A device is a node with a link of its own; `dev_register` puts it in front of the list,
  whether or not it is in the list already.

  * `Devs`, `Devs.register`, `Devs.find`: the nodes, `dev_register`, `find_dev`;
  * `svDevRead` to `monDevWrite`: the two dispatchers, with the handler calls they make;
  * `Rule`, **result** (`dispatch_iff`): a port goes to the device registered last that has it.
    The supervisor subtracts the wrong way round;
  * `Com`, `execCmd`, **result** (`lookup_ends_iff`): the devices of the monitor over any
    commands. A second `sysemu` closes the list to a cycle.
-/
import LsePc.Host.Dev
import LsePc.Lib.Search
import Mathlib.Logic.Function.Basic

namespace LsePc.Host

open LsePc.Bridge LsePc.Supervisor LsePc.Lib

/-! ## 1. The list -/

/-- `struct dev`, at the addresses `ι`, and the list that starts at `devices`. -/
structure Devs (ι : Type) where
  next : ι → Option ι
  ioaddr : ι → Word
  size : ι → Word
  devices : Option ι

variable {ι : Type} [DecidableEq ι]

namespace Devs

/-- `dev_register`. -/
def register (x : Devs ι) (d : ι) : Devs ι :=
  { x with next := Function.update x.next d x.devices, devices := some d }

/-- The window test of `find_dev`; C computes it in `int`. -/
def covers (x : Devs ι) (ioaddr : Word) (d : ι) : Bool :=
  decide ((x.ioaddr d).toNat ≤ ioaddr.toNat ∧
    ioaddr.toNat < (x.ioaddr d).toNat + (x.size d).toNat)

/-- `d = d->next`, on pointers. -/
def link (x : Devs ι) (p : Option ι) : Option ι := p.bind x.next

def hit (x : Devs ι) (ioaddr : Word) (p : Option ι) : Bool := p.elim false (x.covers ioaddr)

/-- The loop of `find_dev` comes to its end: it visits the devices `l` and leaves with `r`. -/
def Finds (x : Devs ι) (ioaddr : Word) (l : List (Option ι)) (r : Option ι) : Prop :=
  Search none x.link (x.hit ioaddr) x.devices l r

/-- `find_dev`, if its loop ends in `n` turns. -/
def find (n : Nat) (x : Devs ι) (ioaddr : Word) : Option (Option ι) :=
  loop none x.link (x.hit ioaddr) n x.devices

/-- The devices `ds`, the one registered last in front. -/
def Lists (x : Devs ι) (ds : List ι) : Prop := Chain none x.link x.devices (ds.map some)

end Devs

/-! ## 2. The two dispatchers -/

/-- A call of a handler of the device `d`. -/
inductive DevCall (ι : Type) where
  | read (d : ι) (offset : Word)
  | write (d : ι) (offset value : Word)
  deriving DecidableEq, Repr

/-- What `dev_read` and `dev_write` return, the word at `iodata` and the calls they make. -/
structure Result (ι : Type) where
  ret : Nat
  iodata : Word
  calls : List (DevCall ι)
  deriving DecidableEq, Repr

section
variable (n : Nat) (x : Devs ι) (handler : ι → Word → Word) (ioaddr iodata : Word)

/-- `dev_read` of the supervisor; `handler` is what the read handlers return. -/
def svDevRead : Option (Result ι) :=
  (x.find n ioaddr).map fun p =>
    match p with
    | none => { ret := 1, iodata := iodata, calls := [] }
    | some d =>
      { ret := 0
        iodata := handler d (x.ioaddr d - ioaddr)
        calls := [.read d (x.ioaddr d - ioaddr)] }

/-- `dev_write` of the supervisor. -/
def svDevWrite : Option (Result ι) :=
  (x.find n ioaddr).map fun p =>
    match p with
    | none => { ret := 1, iodata := iodata, calls := [] }
    | some d => { ret := 0, iodata := iodata, calls := [.write d (x.ioaddr d - ioaddr) iodata] }

/-- `dev_read` of the monitor. -/
def monDevRead : Option (Result ι) :=
  (x.find n ioaddr).map fun p =>
    match p with
    | none => { ret := 1, iodata := 0, calls := [] }
    | some d =>
      { ret := 0
        iodata := laneIn ioaddr (handler d (ioaddr - x.ioaddr d))
        calls := [.read d (ioaddr - x.ioaddr d)] }

/-- `dev_write` of the monitor. -/
def monDevWrite : Option (Result ι) :=
  (x.find n ioaddr).map fun p =>
    match p with
    | none => { ret := 1, iodata := iodata, calls := [] }
    | some d =>
      { ret := 0
        iodata := iodata
        calls := [.write d (ioaddr - x.ioaddr d) (laneOut ioaddr iodata)] }

end

/-! ## 3. Registration -/

section
variable {x : Devs ι} {ds : List ι} {d : ι} {port : Word}

theorem Devs.Lists.register (h : x.Lists ds) (hd : d ∉ ds) : (x.register d).Lists (d :: ds) := by
  refine .cons (Option.some_ne_none d) ?_
  have hlink : (x.register d).link (some d) = x.devices := Function.update_self ..
  change Chain none _ ((x.register d).link (some d)) _
  rw [hlink]
  refine h.congr fun p hp => ?_
  obtain ⟨e, he, rfl⟩ := List.mem_map.mp hp
  have hne : e ≠ d := fun heq => hd (heq ▸ he)
  exact (Function.update_of_ne hne ..).symm

/-- **Distinct devices**, one after the other. -/
theorem Devs.lists_foldl {new : List ι} (h : x.Lists ds) (hnd : (new.reverse ++ ds).Nodup) :
    (new.foldl Devs.register x).Lists (new.reverse ++ ds) := by
  induction new generalizing x ds with
  | nil => exact h
  | cons d new ih =>
    rw [List.reverse_cons, List.append_assoc] at hnd ⊢
    have hd : d ∉ ds := (List.nodup_cons.mp (List.nodup_append.mp hnd).2.1).1
    exact ih (h.register hd) hnd

theorem Devs.foldl_window (new : List ι) : (new.foldl Devs.register x).ioaddr = x.ioaddr ∧
    (new.foldl Devs.register x).size = x.size := by
  induction new generalizing x with
  | nil => exact ⟨rfl, rfl⟩
  | cons d new ih => exact ih (x := x.register d)

/-- **What is found** is the first device of the list that has the port. -/
theorem Devs.Lists.find (h : x.Lists ds) {n : Nat} (hn : ds.length < n) :
    x.find n port = some (ds.find? (x.covers port)) := by
  obtain ⟨l, hpre, hl⟩ := Chain.search h (x.hit port)
  have hlen := hpre.length_le
  rw [List.length_map] at hlen
  refine (hl.loop (Nat.lt_of_le_of_lt hlen hn)).trans (congrArg some ?_)
  rw [List.find?_map]
  cases hf : ds.find? (x.hit port ∘ some) with
  | none => exact hf.symm
  | some d => exact hf.symm

end

/-! ## 4. Lists without links

The devices of Supervisor.lean and of Dev.lean are lists; they are what the links lead through. -/

section
variable {x : Devs ι} {ds : List ι} {port : Word} {n : Nat}

/-- `dev_read` of Supervisor.lean. -/
theorem svDevRead_list {dev : ι → Supervisor.Dev} (h : x.Lists ds)
    (hwin : ∀ d, x.ioaddr d = (dev d).ioaddr ∧ x.size d = (dev d).size) (hn : ds.length < n)
    (iodata : Word) : ∃ r, svDevRead n x (fun d => (dev d).read (dev d).data) port iodata = some r ∧
      Supervisor.devRead (ds.map dev) port = if r.ret = 0 then some r.iodata else none := by
  have hcov : (fun d => (dev d).covers port) = x.covers port := by
    funext d
    unfold Devs.covers Supervisor.Dev.covers
    rw [(hwin d).1, (hwin d).2]
  unfold svDevRead Supervisor.devRead findDev
  rw [h.find hn, List.find?_map, ← hcov]
  cases hf : ds.find? fun d => (dev d).covers port with
  | none => exact ⟨_, rfl, congrArg (Option.map _) (congrArg (Option.map dev) hf)⟩
  | some d =>
    refine ⟨_, rfl, (congrArg (Option.map _) (congrArg (Option.map dev) hf)).trans ?_⟩
    dsimp only [Option.map_some]
    rw [if_pos rfl, (hwin d).1]

/-- What the handler of the device that is found returns. -/
theorem withDev_value {α : Type} (f : Dev → α × SerialData) (port : Word) (l : List Dev) :
    (withDev f port l).map Prod.fst = (l.find? fun d => d.covers port).map fun d => (f d).1 := by
  induction l with
  | nil => rfl
  | cons d l ih =>
    rw [withDev, List.find?_cons]
    cases d.covers port with
    | true => rfl
    | false =>
      rw [if_neg (by decide), Option.map_map]
      exact ih

/-- `dev_read` of Dev.lean. -/
theorem monDevRead_list {dev : ι → Dev} (h : x.Lists ds)
    (hwin : ∀ d, x.ioaddr d = (dev d).ioaddr ∧ x.size d = (dev d).size) (hn : ds.length < n)
    (fd : List Byte) :
    ∃ r, monDevRead n x (fun d o => ((dev d).read (dev d).data fd o).1) port = some r ∧
      (devRead (ds.map dev) port fd).1 = r.iodata := by
  have hcov : (fun d => (dev d).covers port) = x.covers port := by
    funext d
    unfold Devs.covers Dev.covers
    rw [(hwin d).1, (hwin d).2]
  have hval := withDev_value (fun d : Dev =>
    let offset := port - d.ioaddr
    let r := d.read d.data fd offset
    ((r.1, Handled.read d.ioaddr offset r.1), r.2)) port (ds.map dev)
  have hfind : (ds.map dev).find? (fun d => d.covers port) =
      (ds.find? (x.covers port)).map dev := by
    rw [List.find?_map, ← hcov]
    rfl
  rw [hfind] at hval
  unfold monDevRead devRead
  rw [h.find hn]
  revert hval
  generalize withDev _ port (ds.map dev) = w
  intro hval
  cases hf : ds.find? (x.covers port) with
  | none =>
    rw [hf] at hval
    obtain rfl := Option.map_eq_none_iff.mp hval
    exact ⟨_, rfl, rfl⟩
  | some d =>
    rw [hf] at hval
    obtain ⟨⟨⟨iodata, call⟩, ds'⟩, rfl, hx⟩ := Option.map_eq_some_iff.mp hval
    obtain ⟨rfl, -⟩ := Prod.mk.inj hx
    refine ⟨_, rfl, ?_⟩
    dsimp only
    rw [(hwin d).1]

end

/-! ## 5. One rule -/

/-- **The rule**: the handler of the device registered last that has the port is called once,
    with the offset of the port in its window; where there is none, no handler. `ds` are the
    devices, the last one in front. -/
structure Rule (x : Devs ι) (ds : List ι) (port : Word) (call : ι → Word → DevCall ι)
    (r : Result ι) : Prop where
  mapped : ∀ d, ds.find? (x.covers port) = some d →
    r.ret = 0 ∧ r.calls = [call d (port - x.ioaddr d)] ∧
      (port - x.ioaddr d).toNat < (x.size d).toNat
  unmapped : ds.find? (x.covers port) = none → r.ret = 1 ∧ r.calls = []

/-- What both dispatchers do with an access to `port`. -/
def SameRule (n : Nat) (x : Devs ι) (ds : List ι) (handler : ι → Word → Word)
    (port iodata : Word) : Prop :=
  (∃ r, svDevRead n x handler port iodata = some r ∧ Rule x ds port .read r) ∧
  (∃ r, svDevWrite n x port iodata = some r ∧ Rule x ds port (fun d o => .write d o iodata) r) ∧
  (∃ r, monDevRead n x handler port = some r ∧ Rule x ds port .read r) ∧
  ∃ r, monDevWrite n x port iodata = some r ∧
    Rule x ds port (fun d o => .write d o (laneOut port iodata)) r

omit [DecidableEq ι] in
/-- A port of a window has its offset below the size. -/
theorem offset_lt {x : Devs ι} {d : ι} {port : Word} (h : x.covers port d = true) :
    (port - x.ioaddr d).toNat < (x.size d).toNat := by
  have hcov := of_decide_eq_true h
  rw [BitVec.toNat_sub]
  have hlt := port.isLt
  omega

/-- The two differences are the same one at the base, and half way round. -/
theorem sub_comm_iff (a b : Word) : a - b = b - a ↔ b = a ∨ b - a = 0x8000 := by
  have ha := a.isLt
  have hb := b.isLt
  have hhalf : BitVec.toNat (0x8000 : Word) = 32768 := rfl
  rw [← BitVec.toNat_inj, ← BitVec.toNat_inj, ← BitVec.toNat_inj, BitVec.toNat_sub,
    BitVec.toNat_sub, hhalf]
  omega

omit [DecidableEq ι] in
/-- An access to a mapped port, and the rule. -/
theorem rule_some {x : Devs ι} {ds : List ι} {port : Word} {call : ι → Word → DevCall ι} {d : ι}
    (hf : ds.find? (x.covers port) = some d) {r : Result ι} :
    Rule x ds port call r ↔ r.ret = 0 ∧ r.calls = [call d (port - x.ioaddr d)] := by
  constructor
  · intro h
    obtain ⟨hret, hcalls, -⟩ := h.mapped d hf
    exact ⟨hret, hcalls⟩
  · intro h
    refine ⟨fun d' hd' => ?_, fun hnone => ?_⟩
    · obtain rfl : d = d' := Option.some.inj (hf.symm.trans hd')
      exact ⟨h.1, h.2, offset_lt (List.find?_some hf)⟩
    · rw [hf] at hnone
      cases hnone

omit [DecidableEq ι] in
theorem rule_none {x : Devs ι} {ds : List ι} {port : Word} {call : ι → Word → DevCall ι}
    (hf : ds.find? (x.covers port) = none) {r : Result ι} (hret : r.ret = 1)
    (hcalls : r.calls = []) : Rule x ds port call r := by
  refine ⟨fun d hd => ?_, fun _ => ⟨hret, hcalls⟩⟩
  rw [hf] at hd
  cases hd

/-- **The dispatchers follow the rule**, for distinct devices, where the port is the base of its
    window or lies half the address space above it. -/
theorem dispatch_iff {x : Devs ι} (h0 : x.devices = none) {new : List ι} (hnd : new.Nodup)
    (handler : ι → Word → Word) (port iodata : Word) {n : Nat} (hn : new.length < n) :
    SameRule n (new.foldl Devs.register x) new.reverse handler port iodata ↔
      ∀ d, new.reverse.find? (x.covers port) = some d →
        port = x.ioaddr d ∨ port - x.ioaddr d = 0x8000 := by
  have hlists : (new.foldl Devs.register x).Lists (new.reverse ++ []) := by
    refine Devs.lists_foldl (Chain.nil_iff.mpr h0) ?_
    rw [List.append_nil]
    exact List.nodup_reverse.mpr hnd
  rw [List.append_nil] at hlists
  obtain ⟨hio, hsize⟩ := Devs.foldl_window (x := x) new
  generalize new.foldl Devs.register x = y at *
  have hcov : y.covers port = x.covers port := by
    unfold Devs.covers
    rw [hio, hsize]
  have hfind : y.find n port = some (new.reverse.find? (y.covers port)) :=
    hlists.find (by rwa [List.length_reverse])
  unfold SameRule svDevRead svDevWrite monDevRead monDevWrite
  rw [hfind, ← hcov, ← hio]
  cases hf : new.reverse.find? (y.covers port) with
  | none =>
    refine iff_of_true ⟨?_, ?_, ?_, ?_⟩ nofun
    all_goals exact ⟨_, rfl, rule_none hf rfl rfl⟩
  | some d =>
    have hsub := sub_comm_iff (y.ioaddr d) port
    constructor
    · intro h d' hd'
      obtain rfl : d = d' := Option.some.inj hd'
      obtain ⟨⟨r, hr, hrule⟩, -⟩ := h
      obtain ⟨-, hcalls⟩ := (rule_some hf).mp hrule
      obtain rfl := Option.some.inj hr
      simp only [List.cons.injEq, DevCall.read.injEq, true_and, and_true] at hcalls
      exact hsub.mp hcalls
    · intro h
      have hoff := hsub.mpr (h d rfl)
      refine ⟨⟨_, rfl, (rule_some hf).mpr ⟨rfl, ?_⟩⟩, ⟨_, rfl, (rule_some hf).mpr ⟨rfl, ?_⟩⟩,
        ⟨_, rfl, (rule_some hf).mpr ⟨rfl, rfl⟩⟩, ⟨_, rfl, (rule_some hf).mpr ⟨rfl, rfl⟩⟩⟩
      · dsimp only
        rw [hoff]
      · dsimp only
        rw [hoff]

/-- A device of one port, the only kind the supervisor has. -/
def oneDev (ioaddr size : Word) : Devs Unit :=
  { next := fun _ => none, ioaddr := fun _ => ioaddr, size := fun _ => size, devices := none }

/-- Two devices of which each has the port 0x12. -/
def twoDevs : Devs Bool :=
  { next := fun _ => none, ioaddr := fun d => if d then 0x12 else 0x10, size := fun _ => 8
    devices := none }

theorem dispatch_overlap :
    SameRule 3 ([false, true].foldl Devs.register twoDevs) [true, false] (fun _ o => o) 0x12 0xFF ∧
    twoDevs.covers 0x12 false = true ∧
    svDevRead 3 ([false, true].foldl Devs.register twoDevs) (fun _ o => o) 0x12 0xFF =
      some { ret := 0, iodata := 0, calls := [.read true 0] } := by
  refine ⟨(dispatch_iff rfl (by decide) (fun _ o => o) 0x12 0xFF (by decide)).mpr fun d hd => ?_,
    by decide, by decide⟩
  have hlast : [false, true].reverse.find? (twoDevs.covers 0x12) = some true := by decide
  obtain rfl := Option.some.inj (hlast.symm.trans hd)
  exact .inl rfl

/-- The second port of a window at 0 gets the offset 0xFFFF from the supervisor. -/
theorem dispatch_second_port :
    svDevRead 2 ((oneDev 0 2).register ()) (fun _ o => o) 1 0 =
      some { ret := 0, iodata := 0xFFFF, calls := [.read () 0xFFFF] } ∧
    monDevRead 2 ((oneDev 0 2).register ()) (fun _ o => o) 1 =
      some { ret := 0, iodata := 0x100, calls := [.read () 1] } ∧
    ¬ SameRule 2 ((oneDev 0 2).register ()) [()] (fun _ o => o) 1 0 := by
  refine ⟨by decide, by decide, fun h => ?_⟩
  obtain ⟨⟨r, hr, hrule⟩, -⟩ := h
  obtain rfl : { ret := 0, iodata := 0xFFFF, calls := [.read () 0xFFFF] } = r :=
    Option.some.inj hr
  have hcalls := (hrule.mapped () (by decide)).2.1
  exact absurd hcalls (by decide)

/-! ## 6. The devices of the monitor -/

/-- `com1_dev` and `com2_dev`. -/
inductive Com where
  | com1 | com2
  deriving DecidableEq, Repr

/-- The monitor after `monitor_init`. -/
def comDevs : Devs Com where
  next _ := none
  ioaddr
    | .com1 => 0x3f8
    | .com2 => 0x2f8
  size _ := 8
  devices := none

/-- `monitor_cmds`, and a name that is none of them. -/
inductive MonitorCmd where
  | help | list | echo | info | start | stop | brk | cont | status | getregs | sysemu | unknown
  deriving DecidableEq, Repr

/-- What a command does to the list of devices: `cmd_sysemu` begins with two registrations, the
    others do not touch it. -/
def execCmd (x : Devs Com) : MonitorCmd → Devs Com
  | .sysemu => (x.register .com1).register .com2
  | .help | .list | .echo | .info | .start | .stop | .brk | .cont | .status | .getregs
  | .unknown => x

/-- The ports of the two devices. -/
def ComPort (port : Word) : Prop :=
  0x2f8 ≤ port.toNat ∧ port.toNat < 0x300 ∨ 0x3f8 ≤ port.toNat ∧ port.toNat < 0x400

/-- The list after `k` runs of `sysemu`. -/
structure ComList (k : Nat) (x : Devs Com) : Prop where
  ioaddr : x.ioaddr = comDevs.ioaddr
  size : x.size = comDevs.size
  empty : k = 0 → x.devices = none
  head : 0 < k → x.devices = some .com2 ∧ x.next .com2 = some .com1
  last : k = 1 → x.next .com1 = none
  /-- The list that is linked in again is its own rest. -/
  cycle : 1 < k → x.next .com1 = some .com2

theorem execCmd_list {k : Nat} {x : Devs Com} (h : ComList k x) (cmd : MonitorCmd) :
    ComList (k + if cmd = .sysemu then 1 else 0) (execCmd x cmd) := by
  cases cmd with
  | sysemu =>
    rw [if_pos rfl]
    refine ⟨h.ioaddr, h.size, nofun, fun _ => ⟨rfl, rfl⟩, fun hk => ?_, fun hk => ?_⟩
    · exact h.empty (by omega)
    · exact (h.head (by omega)).1
  | _ => exact h

theorem foldl_list (cmds : List MonitorCmd) {k : Nat} {x : Devs Com} (h : ComList k x) :
    ComList (k + cmds.count .sysemu) (cmds.foldl execCmd x) := by
  induction cmds generalizing k x with
  | nil => exact h
  | cons cmd cmds ih =>
    have hcmd := ih (execCmd_list h cmd)
    rw [List.count_cons]
    rw [Nat.add_assoc, Nat.add_comm (if cmd = .sysemu then 1 else 0)] at hcmd
    simp only [beq_iff_eq]
    exact hcmd

theorem covers_iff {k : Nat} {x : Devs Com} (h : ComList k x) (port : Word) :
    x.covers port .com2 = true ∨ x.covers port .com1 = true ↔ ComPort port := by
  unfold Devs.covers ComPort
  rw [h.ioaddr, h.size, decide_eq_true_eq, decide_eq_true_eq]
  exact Iff.rfl

/-- The search on a list that ends, or finds the port before its cycle. -/
theorem ComList.finds {k : Nat} {x : Devs Com} {port : Word} (h : ComList k x)
    (hend : k ≤ 1 ∨ ComPort port) : ∃ l r, x.Finds port l r := by
  unfold Devs.Finds
  by_cases hk : k = 0
  · rw [h.empty hk]
    exact ⟨[], none, .null⟩
  · obtain ⟨hdev, hnext⟩ := h.head (Nat.pos_of_ne_zero hk)
    rw [hdev]
    cases h2 : x.covers port .com2 with
    | true => exact ⟨_, _, .found nofun h2⟩
    | false =>
      have hlink2 : x.link (some .com2) = some .com1 := hnext
      cases h1 : x.covers port .com1 with
      | true =>
        have hfound : Search none x.link (x.hit port) (x.link (some .com2)) [some .com1]
            (some .com1) := by
          rw [hlink2]
          exact .found nofun h1
        exact ⟨_, _, .skip nofun h2 hfound⟩
      | false =>
        have hport : ¬ ComPort port := by
          rw [← covers_iff h, h1, h2]
          decide
        have hlink1 : x.link (some .com1) = none :=
          h.last (Nat.le_antisymm (hend.resolve_right hport) (Nat.pos_of_ne_zero hk))
        have hend : Search none x.link (x.hit port) (x.link (some .com1)) [] none := by
          rw [hlink1]
          exact .null
        have hskip : Search none x.link (x.hit port) (x.link (some .com2)) [some .com1] none := by
          rw [hlink2]
          exact .skip nofun h1 hend
        exact ⟨_, _, .skip nofun h2 hskip⟩

/-- On the cycle it does not end. -/
theorem ComList.not_finds {k : Nat} {x : Devs Com} {port : Word} (h : ComList k x) (hk : 1 < k)
    (hport : ¬ ComPort port) (l : List (Option Com)) (r : Option Com) : ¬ x.Finds port l r := by
  obtain ⟨hdev, hnext⟩ := h.head (Nat.lt_of_succ_lt hk)
  obtain ⟨h2, h1⟩ := not_or.mp ((covers_iff h port).not.mpr hport)
  unfold Devs.Finds
  refine Search.not_of_closed (P := fun p => p = some .com1 ∨ p = some .com2) (fun p hp => ?_)
    (.inr hdev)
  rcases hp with rfl | rfl
  · exact ⟨nofun, Bool.eq_false_iff.mpr h1, .inr (h.cycle hk)⟩
  · exact ⟨nofun, Bool.eq_false_iff.mpr h2, .inl hnext⟩

/-- **Device lookup ends**, visiting no device twice, in every session: as long as `sysemu` has
    been executed once at most, or for a port of one of the two devices. -/
theorem lookup_ends_iff (cmds : List MonitorCmd) (port : Word) :
    (∃ l r, (cmds.foldl execCmd comDevs).Finds port l r ∧ l.Nodup) ↔
      cmds.count .sysemu ≤ 1 ∨ ComPort port := by
  have h : ComList (0 + cmds.count .sysemu) (cmds.foldl execCmd comDevs) :=
    foldl_list cmds ⟨rfl, rfl, fun _ => rfl, nofun, nofun, nofun⟩
  rw [Nat.zero_add] at h
  constructor
  · intro hfind
    obtain ⟨l, r, hl, -⟩ := hfind
    by_contra hnot
    obtain ⟨hk, hport⟩ := not_or.mp hnot
    exact h.not_finds (Nat.lt_of_not_le hk) hport l r hl
  · intro hend
    obtain ⟨l, r, hl⟩ := h.finds hend
    exact ⟨l, r, hl, Search.nodup hl⟩

/-- After a second `sysemu` the lookup of the LED's port does not end, whatever the bound. -/
theorem second_sysemu :
    ¬ ∃ n r, ([.sysemu, .sysemu].foldl execCmd comDevs).find n 0x10 = some r := by
  intro hends
  obtain ⟨n, r, hf⟩ := hends
  have h : ComList 2 ([.sysemu, .sysemu].foldl execCmd comDevs) :=
    foldl_list [.sysemu, .sysemu] (k := 0) ⟨rfl, rfl, fun _ => rfl, nofun, nofun, nofun⟩
  obtain ⟨l, hl⟩ := search_of_loop hf
  exact h.not_finds (by decide) (by unfold ComPort; decide) l r hl

end LsePc.Host
