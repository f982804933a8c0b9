/-
  File:      LsePc/Host/Monitor.lean
  Subject:   The commands of the monitor (sw/monitor/monitor.c) and what a script prints.

  All of them but `sysemu` make one call or none, so a script is a list of calls with texts
  around them.

  * `cmdEcho`, `cmdList`, `cmdHelp`: the commands without a call; `MonitorCmd.call`,
    `MonitorCmd.answer`: the call of a command and what it makes of the reply;
  * `Monitor`, `advance`, `monitor`: the monitor on the events of its script;
  * `Runs`: the script on the supervisor itself;
  * **results**: `script_remote`, over the link a script prints what it prints there;
    `regsText_inj`, the registers that are printed can be read back.
-/
import LsePc.Host.Script
import LsePc.Host.Sysemu

namespace LsePc.Host.Script

open LsePc.Lib LsePc.Bios LsePc.Bridge LsePc.Supervisor

/-! ## 1. Texts -/

/-- What appears: a text on the standard output, the message of `error` about a command that
    has failed, the warning about a command that is not there. -/
inductive Shown where
  | out (text : List UInt8)
  | failed (name : List UInt8) (ret : Int)
  | notFound (name : List UInt8)
  deriving DecidableEq, Repr

/-- `usage` and `help` of `monitor_cmds`. -/
def usage : MonitorCmd → List UInt8
  | .help => ascii "[CMD]"
  | .echo => ascii "[STRING]"
  | .list | .info | .start | .stop | .brk | .cont | .status | .getregs | .sysemu | .unknown => []

def help : MonitorCmd → List UInt8
  | .help => ascii "Show help"
  | .list => ascii "List commands"
  | .echo => ascii "Print STRING"
  | .info => ascii "Print LSE-PC information"
  | .start => ascii "Start LSE-PC CPU"
  | .stop => ascii "Stop LSE-PC CPU"
  | .brk => ascii "Break LSE-PC CPU execution"
  | .cont => ascii "Continue LSE-PC CPU execution"
  | .status => ascii "Print LSE-PC CPU status"
  | .getregs => ascii "Print LSE-PC CPU registers"
  | .sysemu => ascii "Emulate full system"
  | .unknown => []

def cmdEcho (args : List (List UInt8)) : List Shown :=
  [.out (args.flatMap (· ++ [0x20]) ++ [0x0A])]

def cmdList : List Shown :=
  monitorCmds.map fun e => .out (e.name ++ [0x09] ++ help e.cmd ++ [0x0A])

/-- The loop of `cmd_help`, with the value it returns. -/
def helpLoop : List (List UInt8) → List Shown × Int
  | [] => ([], 0)
  | s :: args =>
    match findCmd s with
    | some c =>
      let r := helpLoop args
      (.out (ascii "USAGE: " ++ s ++ [0x20] ++ usage c ++ [0x0A]) ::
        .out (ascii "DESCR: " ++ help c ++ [0x0A, 0x0A]) :: r.1, r.2)
    | none => ([.notFound s], 1)

def cmdHelp (args : List (List UInt8)) : List Shown × Int :=
  if args = [] then (cmdList, 0) else helpLoop args

/-- `%0*x`. -/
def hexPad (width n : Nat) : List UInt8 :=
  List.replicate (width - (number 16 n).length) 0x30 ++ number 16 n

/-- The lines of `cmd_getregs`: label, width and value. -/
def regsLines (r : LsepcRegs) : List (String × Nat × Nat) :=
  [("EFLAGS:\t", 8, r.eflags.toNat), ("EIP:\t", 8, r.eip.toNat), ("ESP:\t", 8, r.esp.toNat),
   ("EBP:\t", 8, r.ebp.toNat), ("EAX:\t", 8, r.eax.toNat), ("EBX:\t", 8, r.ebx.toNat),
   ("ECX:\t", 8, r.ecx.toNat), ("EDX:\t", 8, r.edx.toNat), ("ESI:\t", 8, r.esi.toNat),
   ("EDI:\t", 8, r.edi.toNat), ("CS:\t", 4, r.cs.toNat)]

def linesText (l : List (String × Nat × Nat)) : List UInt8 :=
  l.flatMap fun f => ascii f.1 ++ hexPad f.2.1 f.2.2 ++ [0x0A]

def regsText (r : LsepcRegs) : List UInt8 := linesText (regsLines r)

def strStatus : List (List UInt8) :=
  [ascii "STOP", ascii "RUN", ascii "BREAK (Real mode)", ascii "BREAK (Protected mode)",
   ascii "IO WRITE", ascii "IO READ"]

/-- `%d`. -/
def decimal (n : Int) : List UInt8 :=
  if n < 0 then 0x2D :: number 10 n.natAbs else number 10 n.natAbs

/-! ## 2. Commands -/

theorem version_room : protoVersion.length ≤ versionSize := by decide

/-- The call of a command. -/
def call : MonitorCmd → Option Call
  | .info => some (.getVersion versionSize version_room)
  | .start => some .start
  | .stop => some .stop
  | .brk => some .brk
  | .cont => some .cont
  | .status => some .getStatus
  | .getregs => some .getRegs
  | .help | .list | .echo | .sysemu | .unknown => none

/-- What a command makes of the reply, and the value it returns. `junk` is what was in the
    buffer of `cmd_info`. -/
def answer (junk : List UInt8) (cmd : MonitorCmd) (r : Reply) : List Shown × Int :=
  match cmd, r with
  | .info, .version ret version =>
    if ret < 0 then ([], ret)
    else
      let buffer := version.map UInt8.ofBitVec ++ junk.drop version.length
      ([.out (ascii "Version: " ++ contents (buffer.take (versionSize - 1)) ++ [0x0A])], 0)
  | .status, r =>
    if r.int < 0 then ([], r.int)
    else
      match strStatus[r.int.toNat]? with
      | some str => ([.out (ascii "CPU Status: " ++ str ++ [0x0A])], 0)
      | none => ([.out (ascii "Invalid CPU status: " ++ decimal r.int ++ [0x0A])], -ebadmsg)
  | .getregs, .regs ret regs => if ret ≠ 0 then ([], ret) else ([.out (regsText regs)], 0)
  | _, r => ([], r.int)

/-- The end of `monitor_exec`. -/
def report (name : List UInt8) (r : List Shown × Int) : List Shown :=
  if r.2 ≠ 0 then r.1 ++ [.failed name r.2] else r.1

/-- The name of a command. -/
def nameOf (cmd : MonitorCmd) : List UInt8 :=
  ((monitorCmds.find? fun e => e.cmd == cmd).map Entry.name).getD []

/-- What an event shows without a call; nothing is said of `sysemu`, nor of arguments that are
    not there. -/
def Event.alone : Event → Option (List Shown)
  | .skip => some []
  | .notFound name => some [.notFound name]
  | .run cmd (.done args) =>
    match cmd with
    | .help => some (report (nameOf .help) (cmdHelp args))
    | .list => some cmdList
    | .echo => some (cmdEcho args)
    | _ => none
  | .run _ _ => none

def Event.call : Event → Option Call
  | .run cmd (.done _) => Script.call cmd
  | _ => none

def Event.answer (junk : List UInt8) (e : Event) (r : Reply) : List Shown :=
  match e with
  | .run cmd _ => report (nameOf cmd) (Script.answer junk cmd r)
  | _ => []

/-- No `sysemu`, and the arguments are there. -/
def Event.Plain (e : Event) : Prop := e.alone ≠ none ∨ e.call ≠ none

/-! ## 3. The monitor -/

/-- What is left of a script, and what has been shown. -/
structure Monitor where
  todo : List Event
  shown : List Shown

/-- The monitor goes on to the next event that makes a call. -/
def advance : List Event → List Shown → Monitor
  | [], shown => ⟨[], shown⟩
  | e :: es, shown =>
    match e.alone with
    | some text => advance es (shown ++ text)
    | none => ⟨e :: es, shown⟩

def Monitor.resume (junk : List UInt8) (m : Monitor) (r : Reply) : Monitor :=
  match m.todo with
  | [] => m
  | e :: es => advance es (m.shown ++ e.answer junk r)

def monitor (junk : List UInt8) : Caller Monitor Call Reply where
  ask m := m.todo.head?.bind Event.call
  tell m r m' := m' = m.resume junk r

/-- **The script on the supervisor itself**, event by event. -/
inductive Runs {σ : Type} (api : SvApi σ) (bg : σ → σ → Prop) (junk : List UInt8) (x₀ : σ) :
    List Event → List Shown → σ → Prop where
  | start : Runs api bg junk x₀ [] [] x₀
  | background {es : List Event} {shown : List Shown} {x y : σ}
      (h : Runs api bg junk x₀ es shown x) (hbg : bg x y) : Runs api bg junk x₀ es shown y
  | alone {es : List Event} {shown text : List Shown} {x : σ} {e : Event}
      (h : Runs api bg junk x₀ es shown x) (he : e.alone = some text) :
      Runs api bg junk x₀ (es ++ [e]) (shown ++ text) x
  | call {es : List Event} {shown : List Shown} {x : σ} {e : Event} {c : Call}
      (h : Runs api bg junk x₀ es shown x) (he : e.call = some c) :
      Runs api bg junk x₀ (es ++ [e]) (shown ++ e.answer junk (direct api c x).1)
        (direct api c x).2

/-! ## 4. Where the monitor is -/

section
variable {σ : Type} {api : SvApi σ} {init : List Byte} {bg : σ → σ → Prop} {junk : List UInt8}
  {x₀ x : σ} {events es done : List Event} {shown : List Shown}

theorem advance_runs (es : List Event) (h : Runs api bg junk x₀ done shown x) :
    ∃ done', done ++ es = done' ++ (advance es shown).todo ∧
      Runs api bg junk x₀ done' (advance es shown).shown x := by
  induction es generalizing done shown with
  | nil => exact ⟨done, rfl, h⟩
  | cons e es ih =>
    unfold advance
    cases halone : e.alone with
    | none => exact ⟨done, rfl, h⟩
    | some text =>
      obtain ⟨done', hdone, hruns⟩ := ih (h.alone halone)
      rw [List.append_assoc] at hdone
      exact ⟨done', hdone, hruns⟩

theorem advance_suffix (es : List Event) (shown : List Shown) :
    (advance es shown).todo <:+ es ∧ ∀ e ∈ (advance es shown).todo.head?, e.alone = none := by
  induction es generalizing shown with
  | nil => exact ⟨List.suffix_refl _, nofun⟩
  | cons e es ih =>
    unfold advance
    cases halone : e.alone with
    | none =>
      refine ⟨List.suffix_refl _, fun e' he' => ?_⟩
      cases he'
      exact halone
    | some text =>
      obtain ⟨hsuffix, hhead⟩ := ih (shown ++ text)
      exact ⟨hsuffix.trans (List.suffix_cons e es), hhead⟩

/-- Where a script stands. -/
inductive Staged (api : SvApi σ) (bg : σ → σ → Prop) (junk : List UInt8) (x₀ : σ)
    (events : List Event) : Rpc Monitor (σ × List Cmd) Call Reply → Prop where
  | idle {done todo : List Event} {shown : List Shown} {x : σ} {log : List Cmd}
      (hevents : events = done ++ todo) (hhead : ∀ e ∈ todo.head?, e.alone = none)
      (h : Runs api bg junk x₀ done shown x) :
      Staged api bg junk x₀ events ⟨⟨todo, shown⟩, .idle, x, log⟩
  | posted {done todo : List Event} {shown : List Shown} {x : σ} {log : List Cmd} {e : Event}
      {c : Call} (hevents : events = done ++ e :: todo) (hcall : e.call = some c)
      (h : Runs api bg junk x₀ done shown x) :
      Staged api bg junk x₀ events ⟨⟨e :: todo, shown⟩, .posted c, x, log⟩
  | answered {done todo : List Event} {shown : List Shown} {x : σ} {log : List Cmd} {e : Event}
      {r : Reply} (hevents : events = done ++ e :: todo)
      (h : Runs api bg junk x₀ (done ++ [e]) (shown ++ e.answer junk r) x) :
      Staged api bg junk x₀ events ⟨⟨e :: todo, shown⟩, .answered r, x, log⟩

theorem staged_start (x₀ : σ) :
    Staged api bg junk x₀ events ⟨advance events [], .idle, x₀, []⟩ := by
  have hstart : Runs api bg junk x₀ [] [] x₀ := .start
  obtain ⟨done, hdone, hruns⟩ := advance_runs events hstart
  exact .idle hdone (advance_suffix events []).2 hruns

theorem staged_step (hsmall : Small api) {a b : Rpc Monitor (σ × List Cmd) Call Reply}
    {i : Rpc.Action} (h : Staged api bg junk x₀ events a)
    (hs : Rpc.Step (monitor junk) ((protocol api init).serve Call.cmd Call.decode) (Quietly bg)
      a i b) : Staged api bg junk x₀ events b := by
  cases h with
  | @idle done todo shown x log hevents hhead h =>
    cases hs with
    | post hask =>
      obtain ⟨e, he, hcall⟩ := Option.bind_eq_some_iff.mp hask
      obtain ⟨rest, rfl⟩ := List.head?_eq_some_iff.mp he
      exact .posted hevents hcall h
    | background hbg =>
      obtain ⟨hxy⟩ := hbg
      exact .idle hevents hhead (h.background hxy)
  | posted hevents hcall h =>
    cases hs with
    | serve =>
      rw [serve_eq_direct api hsmall]
      exact .answered hevents (h.call hcall)
    | background hbg =>
      obtain ⟨hxy⟩ := hbg
      exact .posted hevents hcall (h.background hxy)
  | @answered done todo shown x log e r hevents h =>
    cases hs with
    | resume htell =>
      obtain rfl := htell
      obtain ⟨done', hdone, hruns⟩ := advance_runs todo h
      rw [List.append_assoc, List.singleton_append, ← hevents] at hdone
      exact .idle hdone (advance_suffix todo _).2 hruns
    | background hbg =>
      obtain ⟨hxy⟩ := hbg
      exact .answered hevents (h.background hxy)

/-- What holds in a state of a run, after the steps `is`. -/
structure Reported (api : SvApi σ) (init : List Byte) (bg : σ → σ → Prop) (junk : List UInt8)
    (x₀ : σ) (events : List Event) (is : List Link.Action)
    (s : Link Monitor (σ × List Cmd) Byte Int Cmd (List Byte) Reply) : Prop where
  /-- Between two calls what has been shown is what the events so far show on the supervisor. -/
  between : s.cur = none → s.Quiet ∧ ∃ done, events = done ++ s.host.todo ∧
    Runs api bg junk x₀ done s.host.shown s.x.1
  /-- The script goes on to its end. -/
  goesOn : (s.Quiet ∧ s.host.todo = []) ∨ ∃ i t, i ≠ .background ∧
    Link.Step (monitor junk) (protocol api init) (Quietly bg) s i t
  returns : (is.filter (· ≠ .background)).length ≤ 113 * events.length

theorem monitor_tells (m : Monitor) (c : Call) (r : Reply) (_ : (monitor junk).ask m = some c) :
    ∃ m', (monitor junk).tell m r m' := ⟨_, rfl⟩

theorem monitor_left (m : Monitor) (c : Call) (hask : (monitor junk).ask m = some c) :
    0 < m.todo.length ∧ ∀ r m', (monitor junk).tell m r m' → m'.todo.length < m.todo.length := by
  obtain ⟨todo, shown⟩ := m
  obtain ⟨e, he, -⟩ := Option.bind_eq_some_iff.mp hask
  obtain ⟨rest, rfl⟩ := List.head?_eq_some_iff.mp he
  refine ⟨Nat.zero_lt_succ _, ?_⟩
  intro r _ hm
  obtain rfl := hm
  exact Nat.lt_succ_of_le (advance_suffix rest _).1.length_le

theorem monitor_coupled (init : List Byte) : Coupled (monitor junk) (protocol api init) Call.cmd
    Call.decode 0 (Link.start (advance events []) (x₀, [])) ⟨advance events [], .idle, x₀, []⟩ :=
  .quiet ⟨rfl, rfl, rfl, rfl⟩

theorem reported (hsmall : Small api) (hplain : ∀ e ∈ events, e.Plain) {is : List Link.Action}
    {s : Link Monitor (σ × List Cmd) Byte Int Cmd (List Byte) Reply}
    (h : Path (Link.Step (monitor junk) (protocol api init) (Quietly bg))
      (Link.start (advance events []) (x₀, [])) is s) :
    Reported api init bg junk x₀ events is s := by
  have hreach : Reach (· = Link.start (advance events []) (x₀, []))
      (Link.Step (monitor junk) (protocol api init) (Quietly bg)) s := h.reach (.init rfl)
  obtain ⟨a, ha, n, hc⟩ := Link.refines (client_calls api init) hreach
  have hstaged : Staged api bg junk x₀ events a := by
    refine ha.invariant ?_ fun _ _ _ hb hs => staged_step hsmall hb hs
    intro _ he
    obtain rfl := he
    exact staged_start x₀
  have hbetween : s.cur = none → s.Quiet ∧ (∀ e ∈ s.host.todo.head?, e.alone = none) ∧
      ∃ done, events = done ++ s.host.todo ∧ Runs api bg junk x₀ done s.host.shown s.x.1 := by
    intro hcur
    obtain ⟨hq, rfl⟩ := hc.quiet_of_none hcur
    refine ⟨hq, ?_⟩
    generalize s.host = host, s.x = x at hstaged
    cases hstaged with
    | idle hevents hhead h => exact ⟨hhead, _, hevents, h⟩
  refine ⟨fun hcur => ?_, ?_, ?_⟩
  · obtain ⟨hq, -, hruns⟩ := hbetween hcur
    exact ⟨hq, hruns⟩
  · refine (hc.ready monitor_tells).imp_left fun ⟨hq, hask⟩ => ⟨hq, ?_⟩
    obtain ⟨-, hhead, done, hevents, -⟩ := hbetween hq.cur
    cases htodo : s.host.todo with
    | nil => rfl
    | cons e es =>
      rw [htodo] at hhead hevents
      have hcall : e.call = none := by
        have hask : s.host.todo.head?.bind Event.call = none := hask
        rw [htodo] at hask
        exact hask
      have he : e ∈ events := hevents ▸ List.mem_append_right _ List.mem_cons_self
      rcases hplain e he with h | h
      · exact absurd (hhead e rfl) h
      · exact absurd hcall h
  · have hle := Link.bounded monitor_left (client_calls api init) h (monitor_coupled init)
    have hlen : (advance events []).todo.length ≤ events.length :=
      (advance_suffix events []).1.length_le
    have hpending : (Link.start (advance events []) (x₀, []) :
        Link Monitor (σ × List Cmd) Byte Int Cmd (List Byte) Reply).pending
          (fun m => m.todo.length) = (advance events []).todo.length := rfl
    rw [hpending] at hle
    omega

end

/-! ## 5. Scripts -/

/-- What a script says. -/
def said (stream : List UInt8) : List Event := (lines stream).map fun line => meant (content line)

def Event.sysemu : Event → Bool
  | .run .sysemu _ => true
  | _ => false

theorem meant_plain {line : List UInt8} (h : (meant line).sysemu = false) :
    (meant line).Plain := by
  unfold meant at h ⊢
  cases hws : words line with
  | nil => exact .inl nofun
  | cons w ws =>
    rw [hws] at h
    dsimp only at h ⊢
    by_cases hw : w.head? = some HASH
    · rw [if_pos hw]
      exact .inl nofun
    · rw [if_neg hw] at h ⊢
      cases hcmd : findCmd w with
      | none => exact .inl nofun
      | some cmd =>
        rw [hcmd] at h
        have hcmds : ∀ e ∈ monitorCmds, e.cmd ≠ .unknown := by decide
        obtain ⟨e, he, rfl⟩ := Option.map_eq_some_iff.mp hcmd
        cases hc : e.cmd with
        | help | list | echo => exact .inl (Option.some_ne_none _)
        | info | start | stop | brk | cont | status | getregs =>
          exact .inr (Option.some_ne_none _)
        | sysemu =>
          rw [hc] at h
          nomatch h
        | unknown => exact absurd hc (hcmds e (List.mem_of_find?_eq_some he))

/-- **Over the link a script prints what it prints on the supervisor itself**, line by line, and
    comes to its end. -/
theorem script_remote {stream junk : List UInt8} {init : List Byte}
    {bg : Machine → Machine → Prop} {m : Machine} {is : List Link.Action}
    {s : Link Monitor (Machine × List Cmd) Byte Int Cmd (List Byte) Reply}
    (hsound : ∀ line ∈ lines stream, Sound line)
    (hsysemu : ∀ e ∈ said stream, e.sysemu = false)
    (h : Path (Link.Step (monitor junk) (protocol machineApi init) (Quietly bg))
      (Link.start (advance (said stream) []) (m, [])) is s) :
    execScript stream = .done (said stream) ∧
      Reported machineApi init bg junk m (said stream) is s := by
  refine ⟨(execLines_iff (lines stream)).mpr hsound, reported machineApi_small ?_ h⟩
  intro e he
  have hno := hsysemu e he
  obtain ⟨line, -, rfl⟩ := List.mem_map.mp he
  exact meant_plain hno

/-- A script that shows the registers, to its end. -/
theorem script_remote_regs : ∃ is s, s.Quiet ∧ (monitor []).ask s.host = none ∧
    execScript (ascii "break\ngetregs\ncontinue\n") =
      .done (said (ascii "break\ngetregs\ncontinue\n")) ∧
    Reported machineApi [] (fun _ _ => False) [] default
      (said (ascii "break\ngetregs\ncontinue\n")) is s := by
  have hlines : lines (ascii "break\ngetregs\ncontinue\n") =
      [ascii "break" ++ [NEWLINE], ascii "getregs" ++ [NEWLINE],
        ascii "continue" ++ [NEWLINE]] := by decide
  have hsound : ∀ line ∈ lines (ascii "break\ngetregs\ncontinue\n"), Sound line := by
    rw [hlines]
    rintro line hline
    rcases List.mem_cons.mp hline with rfl | hline
    · exact sound_plain (by decide) (by decide) (by decide)
    rcases List.mem_cons.mp hline with rfl | hline
    · exact sound_plain (by decide) (by decide) (by decide)
    · obtain rfl := List.mem_singleton.mp hline
      exact sound_plain (by decide) (by decide) (by decide)
  obtain ⟨is, s, h, hq, hask⟩ := Link.completes monitor_tells monitor_left
    (client_calls machineApi []) (monitor_coupled [])
  exact ⟨is, s, hq, hask, script_remote hsound (by decide) h⟩

/-! ## 6. The registers -/

/-- A digit that is printed, and a string of them. -/
def digitOf (c : UInt8) : Nat := if c.toNat < 0x3A then c.toNat - 0x30 else c.toNat - 0x57

def hexValue (s : List UInt8) : Nat := s.foldl (fun n c => 16 * n + digitOf c) 0

theorem digitOf_digit : ∀ d < 16, digitOf (Nat.digitChar d).toUInt8 = d := by decide

theorem hexValue_number (n : Nat) : hexValue (number 16 n) = n := by
  induction n using Nat.strong_induction_on with
  | _ n ih =>
    unfold number at ih ⊢
    rw [Nat.toDigits_eq_if (by decide)]
    split
    · rename_i h
      show 16 * 0 + digitOf (Nat.digitChar n).toUInt8 = n
      rw [digitOf_digit n h, Nat.mul_zero, Nat.zero_add]
    · rename_i h
      have hdiv := ih (n / 16) (by omega)
      unfold hexValue at hdiv ⊢
      rw [List.map_append, List.foldl_append, hdiv]
      show 16 * (n / 16) + digitOf (Nat.digitChar (n % 16)).toUInt8 = n
      rw [digitOf_digit _ (Nat.mod_lt n (by decide))]
      exact Nat.div_add_mod n 16

theorem hexValue_hexPad (width n : Nat) : hexValue (hexPad width n) = n := by
  have hzeros : ∀ k,
      (List.replicate k (0x30 : UInt8)).foldl (fun n c => 16 * n + digitOf c) 0 = 0 := by
    intro k
    induction k with
    | zero => rfl
    | succ k ih => exact ih
  have hn := hexValue_number n
  unfold hexValue hexPad at *
  rw [List.foldl_append, hzeros, hn]

theorem hexPad_length {width n : Nat} (hwidth : 0 < width) (h : n < 16 ^ width) :
    (hexPad width n).length = width := by
  have hle := (Nat.length_toDigits_le_iff (by decide) hwidth).mpr h
  unfold hexPad number
  rw [List.length_append, List.length_replicate, List.length_map]
  omega

/-- A line can be read where its value fits. -/
def Fits (f : String × Nat × Nat) : Prop := 0 < f.2.1 ∧ f.2.2 < 16 ^ f.2.1

theorem linesText_inj {l l' : List (String × Nat × Nat)}
    (hlabels : l.map (fun f => (f.1, f.2.1)) = l'.map (fun f => (f.1, f.2.1)))
    (hl : ∀ f ∈ l, Fits f) (hl' : ∀ f ∈ l', Fits f) (h : linesText l = linesText l') : l = l' := by
  induction l generalizing l' with
  | nil => exact (List.map_eq_nil_iff.mp hlabels.symm).symm
  | cons f l ih =>
    cases l' with
    | nil => nomatch hlabels
    | cons f' l' =>
      obtain ⟨label, width, n⟩ := f
      obtain ⟨label', width', n'⟩ := f'
      obtain ⟨hf, hrests⟩ := List.cons.inj hlabels
      obtain ⟨rfl, rfl⟩ := Prod.mk.inj hf
      obtain ⟨⟨hwidth, hn⟩, hl⟩ := List.forall_mem_cons.mp hl
      obtain ⟨⟨-, hn'⟩, hl'⟩ := List.forall_mem_cons.mp hl'
      have h : ascii label ++ hexPad width n ++ [0x0A] ++ linesText l =
          ascii label ++ hexPad width n' ++ [0x0A] ++ linesText l' := h
      rw [List.append_assoc, List.append_assoc, List.append_assoc, List.append_assoc,
        List.append_cancel_left_eq] at h
      have hlen : (hexPad width n).length = (hexPad width n').length := by
        rw [hexPad_length hwidth hn, hexPad_length hwidth hn']
      obtain ⟨hvalue, hrest⟩ := List.append_inj h hlen
      have hnn := congrArg hexValue hvalue
      rw [hexValue_hexPad, hexValue_hexPad] at hnn
      rw [hnn, ih hrests hl hl' (List.append_cancel_left hrest)]

theorem regsLines_fits (r : LsepcRegs) : ∀ f ∈ regsLines r, Fits f := by
  unfold regsLines Fits
  simp only [List.forall_mem_cons]
  have h32 : ∀ v : BitVec 32, 0 < 8 ∧ v.toNat < 16 ^ 8 := fun v => ⟨by decide, v.isLt⟩
  exact ⟨h32 _, h32 _, h32 _, h32 _, h32 _, h32 _, h32 _, h32 _, h32 _, h32 _,
    ⟨by decide, r.cs.isLt⟩, nofun⟩

/-- **The registers can be read back from what `getregs` prints**; only `valid` is not there. -/
theorem regsText_inj {r r' : LsepcRegs} (h : regsText r = regsText r') :
    { r with valid := r'.valid } = r' := by
  have hlines : regsLines r = regsLines r' :=
    linesText_inj rfl (regsLines_fits r) (regsLines_fits r') h
  obtain ⟨valid, eflags, eip, eax, ecx, edx, ebx, esp, ebp, esi, edi, cs⟩ := r
  obtain ⟨valid', eflags', eip', eax', ecx', edx', ebx', esp', ebp', esi', edi', cs'⟩ := r'
  simp only [regsLines, List.cons.injEq, Prod.mk.injEq, true_and, and_true,
    BitVec.toNat_inj] at hlines
  obtain ⟨rfl, rfl, rfl, rfl, rfl, rfl, rfl, rfl, rfl, rfl, rfl⟩ := hlines
  rfl

end LsePc.Host.Script
