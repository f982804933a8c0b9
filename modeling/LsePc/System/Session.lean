/-
  File:      LsePc/System/Session.lean
  Subject:   Sessions with the BIOS at the two serial lines.

  What the BIOS prints on COM1 follows from the bytes it has taken, in the order it has taken
  them. So a session is a list of bytes, and what comes of it can be computed on `session`.

  * `line_path`: the operations of a trace, line by line;
  * `Types`: the line typed so far is in the buffer; `Asks`: keys whose edited line has these
    words;
  * `Loaded.archive`: an archive, into any file system that has no file;
  * **results**: `console_served`, over the link the BIOS prints what `session` has to say to
    the bytes taken, and no byte is lost; `file_shown` and `listing_shown`, a packed file that
    survives is received by `recvfs` and shown by `p` and `ls`.
-/
import LsePc.Bios.Cpio
import LsePc.System.Console

namespace LsePc.System

open LsePc.Lib LsePc.Bridge LsePc.Supervisor LsePc.Host LsePc.Bios

/-! ## 1. The lines -/

/-- The byte of an input, if it is one of this line. -/
def inputOn : SerialPort → Input → Option UInt8
  | .com1, .com1 b => some b
  | .com2, .com2 b => some b
  | _, _ => none

/-- What an operation sends on this line. -/
def outputOn (c : SerialPort) : Event LineOp LineOp.Answer → Option UInt8
  | ⟨.writeb c' b, _⟩ => if c' = c then some b else none
  | _ => none

def takenOn (c : SerialPort) (e : Event LineOp LineOp.Answer) : Option UInt8 :=
  (lineInput e).bind (inputOn c)

theorem takenOn_readb (c c' : SerialPort) (b : UInt8) :
    takenOn c ⟨.readb c', b⟩ = if c' = c then some b else none := by
  cases c with
  | com1 =>
    cases c' with
    | com1 => rfl
    | com2 => rfl
  | com2 =>
    cases c' with
    | com1 => rfl
    | com2 => rfl

/-- **One operation**, line by line. -/
theorem line_step {l l' : Lines} {e : Event LineOp LineOp.Answer} (h : LineStep l e l')
    (c : SerialPort) : (l' c).taken = (l c).taken ++ (takenOn c e).toList ∧
      (l' c).sent = (l c).sent ++ (outputOn c e).toList ∧
      ((l c).taken <+: (l c).arrived → (l' c).taken <+: (l' c).arrived) := by
  cases h with
  | canReceive h c' =>
    obtain ⟨harr, htaken, hsent⟩ := h c
    refine ⟨htaken.trans (List.append_nil _).symm, hsent.trans (List.append_nil _).symm,
      fun hp => ?_⟩
    rw [htaken]
    exact hp.trans harr
  | @readb l' h c' b hb =>
    obtain ⟨harr, htaken, hsent⟩ := h c
    rw [takenOn_readb, Function.update_apply]
    by_cases he : c = c'
    · subst he
      rw [if_pos rfl, if_pos rfl, ← htaken, ← hsent]
      exact ⟨rfl, (List.append_nil _).symm, fun _ => hb⟩
    · rw [if_neg he, if_neg (Ne.symm he), ← htaken, ← hsent]
      exact ⟨(List.append_nil _).symm, (List.append_nil _).symm, fun hp => hp.trans harr⟩
  | @writeb l' h c' b =>
    obtain ⟨harr, htaken, hsent⟩ := h c
    rw [Function.update_apply]
    by_cases he : c = c'
    · subst he
      rw [if_pos rfl, ← htaken, ← hsent]
      exact ⟨(List.append_nil _).symm, by simp [outputOn], fun hp => hp.trans harr⟩
    · rw [if_neg he, ← htaken, ← hsent]
      exact ⟨(List.append_nil _).symm, by simp [outputOn, Ne.symm he], fun hp => hp.trans harr⟩

theorem filterMap_cons_toList {α β : Type} (f : α → Option β) (a : α) (l : List α) :
    (a :: l).filterMap f = (f a).toList ++ l.filterMap f := by
  cases h : f a with
  | none => simp [h]
  | some b => simp [h]

/-- **A trace**, line by line. -/
theorem line_path {l l' : Lines} {tr : List (Event LineOp LineOp.Answer)}
    (h : Path LineStep l tr l') (c : SerialPort) :
    (l' c).taken = (l c).taken ++ tr.filterMap (takenOn c) ∧
      (l' c).sent = (l c).sent ++ tr.filterMap (outputOn c) ∧
      ((l c).taken <+: (l c).arrived → (l' c).taken <+: (l' c).arrived) := by
  induction h with
  | nil l => exact ⟨(List.append_nil _).symm, (List.append_nil _).symm, id⟩
  | cons hs _ ih =>
    obtain ⟨htaken, hsent, hpre⟩ := line_step hs c
    obtain ⟨htaken', hsent', hpre'⟩ := ih
    refine ⟨?_, ?_, fun hp => hpre' (hpre hp)⟩
    · rw [htaken', htaken, List.append_assoc, filterMap_cons_toList]
    · rw [hsent', hsent, List.append_assoc, filterMap_cons_toList]

/-! ## 2. Over the link -/

/-- The bytes of a line among those that were taken. -/
def inputsOn (c : SerialPort) (is : List Input) : List UInt8 := is.filterMap (inputOn c)

/-- What the BIOS prints up to its next byte, when it has taken these. -/
def consoleText (n : Nat) (load : FsState → BitVec 32 → Option UInt8) (fs : Nat → FsBlock)
    (mem : Nat → Mem) (is : List Input) : List UInt8 :=
  bootText n ++ (session n load).text (.shell .start (bootFs fs mem)) is

/-- `out` is what is to be printed on `is`, or the rest of it is to be printed before the next
    byte is taken. -/
structure Printed (n : Nat) (load : FsState → BitVec 32 → Option UInt8) (fs : Nat → FsBlock)
    (mem : Nat → Mem) (is : List Input) (out : List UInt8) : Prop where
  earlier : is ≠ [] → consoleText n load fs mem is.dropLast <+: out
  due : out <+: consoleText n load fs mem is

section
variable {n : Nat} {load : FsState → BitVec 32 → Option UInt8} {fs : Nat → FsBlock}
  {mem : Nat → Mem} {tr : List (Event LineOp LineOp.Answer)}

/-- **A trace of the BIOS**, whatever the lines do. -/
theorem main_printed (h : Issues (main n load fs mem) tr) :
    Printed n load fs mem (tr.filterMap lineInput) (tr.filterMap lineOutput) := by
  have hdisjoint : ∀ e, lineInput e ≠ none → lineOutput e = none := by
    rintro ⟨i, o⟩ he
    cases i with
    | canReceive c => rfl
    | readb c => rfl
    | writeb c b => exact absurd rfl he
  obtain ⟨t, hp, hnow, hdue, hsaid, hasked, -⟩ :=
    talks_path (M := session n load) hdisjoint tr (bootTalk n fs mem)
  have hprompt : t.Prompt := (main_keeps n load fs mem).begins ⟨tr, h, hp⟩
  unfold Talk.Prompt at hprompt
  rw [hsaid, hdue] at hprompt
  refine ⟨fun hne => ?_, hprompt.2⟩
  rw [hasked hne] at hprompt
  exact hprompt.1

end

/-- **The BIOS over the link**: as long as the accesses the CPU has finished are those of the BIOS,
    it has taken from each line what came first there, and it has printed what follows from
    the bytes taken, in the order it took them. -/
theorem console_served {init : List Byte} {data1 data2 : SerialData} (h1 : data1.Sound)
    (h2 : data2.Sound) {g₀ : Guest} (hg : g₀.Init)
    {s : Link Sysemu (Guest × List Cmd) Byte Int Cmd (List Byte) Reply}
    (h : Reach (· = Link.start (Sysemu.init data1 data2) (g₀, []))
      (Link.Step sysemu (protocol guestApi init) (Quietly Busy)) s)
    {n : Nat} {load : FsState → BitVec 32 → Option UInt8} {fs : Nat → FsBlock} {mem : Nat → Mem}
    {tr : List (Event IoOp IoOp.Answer)} (hp : Issues ((main n load fs mem).handle (uart n)) tr)
    (hc : List.Forall₂ Carries tr s.x.1.finished) :
    ∃ is l out, Serves s.x.1 s.host.dev l ∧
      (∀ c, (l c).taken = inputsOn c is ∧ (l c).taken <+: (l c).arrived) ∧
      Printed n load fs mem is out ∧ (l .com1).sent = bytes data1.output ++ out := by
  obtain ⟨l, l', ⟨tr', hissues, hpath⟩, hgrows, hserves⟩ := link_program h1 h2 hg h hp hc
  have hinputs : ∀ c, inputsOn c (tr'.filterMap lineInput) = tr'.filterMap (takenOn c) :=
    fun c => List.filterMap_filterMap
  have houtput : tr'.filterMap (outputOn .com1) = tr'.filterMap lineOutput := by
    refine List.filterMap_congr ?_
    rintro ⟨i, o⟩ -
    cases i with
    | canReceive c => rfl
    | readb c => rfl
    | writeb c b =>
      cases c with
      | com1 => rfl
      | com2 => rfl
  refine ⟨_, l', _, hserves, fun c => ?_, main_printed hissues, ?_⟩
  · obtain ⟨harr, htaken, -⟩ := hgrows c
    obtain ⟨hpath, -, hpre⟩ := line_path hpath c
    have hstart : (Lines.start data1 data2 c).taken = [] := by
      cases c with
      | com1 => rfl
      | com2 => rfl
    rw [hstart] at hpath hpre
    rw [htaken, hinputs]
    exact ⟨hpath, (hpre List.nil_prefix).trans harr⟩
  · rw [(hgrows .com1).2.2, (line_path hpath .com1).2.1, houtput]
    rfl

/-- The first byte the BIOS prints: the line status, the LED twice and the transmitter. -/
theorem issues_first {load : FsState → BitVec 32 → Option UInt8} {fs : Nat → FsBlock}
    {mem : Nat → Mem} {b : Byte} (hb : b &&& TRANSMITTER_READY ≠ 0) :
    Issues ((main 20 load fs mem).handle (uart 20)) [⟨.inb 0x3fd, b⟩, ⟨.inb LED_PORT, 0⟩,
      ⟨.outb LED_PORT 1, ()⟩, ⟨.outb 0x3f8 0x49, ()⟩] := by
  have htext : (printed (printfP 20 (ascii "IDT: %p\n") (frameToVirt 2))).map (·.take 1) =
      some [0x49] := by decide +kernel
  obtain ⟨text, htext, hfirst⟩ := Option.map_eq_some_iff.mp htext
  cases text with
  | nil => cases hfirst
  | cons c rest =>
    obtain rfl : c = 0x49 := (List.cons.inj hfirst).1
    have hprint : print (printfP 20 (ascii "IDT: %p\n") (frameToVirt 2)) = send (0x49 :: rest) := by
      rw [print, htext]
    unfold main
    rw [hprint]
    show Issues (Prog.op (IoOp.inb 0x3fd) _) _
    constructor
    have hready : decide (b &&& TRANSMITTER_READY ≠ 0) = true := decide_eq_true hb
    show Issues (((if decide (b &&& TRANSMITTER_READY ≠ 0) then _ else _ : Io Unit).bind _)) _
    rw [hready]
    exact .op (.op (.op (.here _)))

/-- The words of the two INs are those of the I/O space. -/
theorem carries_first {data1 data2 : SerialData} (h1 : data1.Sound) (h2 : data2.Sound)
    {ys : List (Access × Option Word)} {x : IoSpace}
    (hpath : Path IoSpace.Step (.start data1 data2) ys x) (hys : ys.map Prod.fst =
      [⟨0x3fd, false, 0⟩, ⟨0x10, false, 0⟩, ⟨0x10, true, 1⟩, ⟨0x3f8, true, 0x49⟩]) :
    ∃ b : Byte, b &&& TRANSMITTER_READY ≠ 0 ∧ List.Forall₂ Carries [⟨.inb 0x3fd, b⟩,
      ⟨.inb LED_PORT, 0⟩, ⟨.outb LED_PORT 1, ()⟩, ⟨.outb 0x3f8 0x49, ()⟩] ys := by
  obtain ⟨⟨_, o1⟩, _, rfl, rfl, hys1⟩ := List.map_eq_cons_iff.mp hys
  obtain ⟨⟨_, o2⟩, _, rfl, rfl, hys2⟩ := List.map_eq_cons_iff.mp hys1
  obtain ⟨⟨_, o3⟩, _, rfl, rfl, hys3⟩ := List.map_eq_cons_iff.mp hys2
  obtain ⟨⟨_, o4⟩, _, rfl, rfl, hys4⟩ := List.map_eq_cons_iff.mp hys3
  obtain rfl := List.map_eq_nil_iff.mp hys4
  cases hpath with
  | cons hs1 hpath =>
    cases hpath with
    | cons hs2 _ =>
      cases hs1 with
      | write _ hw => cases hw
      | read fd _ =>
        cases hs2 with
        | write _ hw => cases hw
        | read fd' _ =>
          have hled : ((IoSpace.start data1 data2).inw 0x3fd fd).2.led = 0 :=
            inw_led (by decide) fd
          have hdark : ∀ x : IoSpace, x.led = 0 → (x.inw ledPort fd').1 = 0 := by
            intro x hx
            simp [IoSpace.inw, hx]
          have hstatus : ∀ w : Word,
              Carries ⟨.inb 0x3fd, lane 0x3fd w⟩ (⟨0x3fd, false, 0⟩, some w) :=
            fun w => .inb (a := ⟨0x3fd, false, 0⟩) w rfl
          obtain ⟨-, -, -, -, hready⟩ := reads_lsr (c := .com1) (reads_start h1 h2)
            ⟨_, hstatus _, .read (a := ⟨0x3fd, false, 0⟩) fd rfl⟩
          have hin : Carries ⟨.inb LED_PORT, 0⟩ (⟨0x10, false, 0⟩, some 0) :=
            .inb (a := ⟨0x10, false, 0⟩) 0 rfl
          have hout : Carries ⟨.outb LED_PORT 1, ()⟩ (⟨0x10, true, 1⟩, o3) :=
            .outb (a := ⟨0x10, true, 1⟩) o3 rfl
          have hbyte : Carries ⟨.outb 0x3f8 0x49, ()⟩ (⟨0x3f8, true, 0x49⟩, o4) :=
            .outb (a := ⟨0x3f8, true, 0x49⟩) o4 rfl
          exact ⟨_, hready, .cons (hstatus _)
            (.cons (hdark _ hled ▸ hin) (.cons hout (.cons hbyte .nil)))⟩

/-- The CPU has sent the first byte. -/
theorem console_served_first : ∃ (s : Link Sysemu (Guest × List Cmd) Byte Int Cmd (List Byte) Reply)
    (is : List Input) (l : Lines) (out : List UInt8),
    s.x.1.finished.map Prod.fst =
      [⟨0x3fd, false, 0⟩, ⟨0x10, false, 0⟩, ⟨0x10, true, 1⟩, ⟨0x3f8, true, 0x49⟩] ∧
    Serves s.x.1 s.host.dev l ∧
    (∀ c, (l c).taken = inputsOn c is ∧ (l c).taken <+: (l c).arrived) ∧
    Printed 20 (fun _ _ => none) zeroBlocks (fun _ => cstr []) is out ∧
    (l .com1).sent = bytes (SerialData.fresh (List.replicate 512 0)).output ++ out := by
  obtain ⟨τ, -, hm⟩ := svInit_eq default
  have hg : (⟨_, [], none, []⟩ : Guest).Init := ⟨default, hm, rfl, rfl, rfl⟩
  have hsound : (SerialData.fresh (List.replicate 512 0)).Sound :=
    ⟨List.length_replicate, Nat.zero_le _⟩
  obtain ⟨s, hs, hfin⟩ := accesses_finished hg
    [⟨0x3fd, false, 0⟩, ⟨0x10, false, 0⟩, ⟨0x10, true, 1⟩, ⟨0x3f8, true, 0x49⟩]
  obtain ⟨x, hpath, -, -⟩ := @link_backed [] _ _ _ hg _ hs
  obtain ⟨b, hb, hcarries⟩ := carries_first hsound hsound hpath hfin
  obtain ⟨is, l, out, hserves, hin, hprinted, hsent⟩ :=
    @console_served [] _ _ hsound hsound _ hg _ hs
    20 (fun _ _ => none) zeroBlocks (fun _ => cstr []) _ (issues_first hb) hcarries
  exact ⟨s, is, l, out, hfin, hserves, hin, hprinted, hsent⟩

/-! ## 3. Keys -/

/-- The line typed so far is in the buffer. -/
structure Types (t : Term) (line : List UInt8) : Prop where
  size : t.buffer.length = Shell.BUF_SIZE
  pos : t.pos.toNat = line.length
  nonzero : 0 ∉ line
  line : line <+: t.buffer

/-- The shell of the editor, with nothing in its records. -/
abbrev Term.shell (t : Term) : Shell :=
  { buffer := t.buffer, pos := t.pos, last := t.last, passed := [], calls := [], com1 := [] }

section
variable (n : Nat) (load : FsState → BitVec 32 → Option UInt8) {t : Term} {s : FsState}
  {line typed : List UInt8} {byte : UInt8}

theorem types_start : Types .start [] :=
  ⟨List.length_replicate, rfl, List.not_mem_nil, List.nil_prefix⟩

theorem Types.follows (h : Types t line) : Follows t.shell ⟨line, []⟩ :=
  ⟨h.size, h.pos, h.line, h.nonzero, by simp, rfl⟩

/-- The shell of the machine and the shell that is compared with the editor. -/
theorem key_type {sh : Shell} (h : t.shell.type byte = .done sh) (hb : byte ≠ Shell.ENTER) :
    (Session.key n load t s byte).1 = .shell ⟨sh.buffer, sh.pos, sh.last⟩ s := by
  unfold Shell.type at h
  unfold Session.key
  obtain ⟨buffer, hstore, hack⟩ := Outcome.of_bind_done h
  have hstore : store t.buffer t.pos.toNat byte = .done buffer := hstore
  have hget : buffer[t.pos.toNat]? = some byte := by
    unfold store at hstore
    split at hstore
    · rename_i hlt
      cases hstore
      simp [hlt]
    · cases hstore
  rw [hstore]
  unfold Bios.ackCmd at hack
  unfold Session.ack
  dsimp only [Term.shell] at hack ⊢
  rw [hget] at hack ⊢
  dsimp only at hack ⊢
  rw [if_neg hb] at hack ⊢
  by_cases hdel : byte = Shell.DEL ∨ byte = Shell.BACKSPACE
  · rw [if_pos hdel] at hack ⊢
    by_cases hpos : 0 < t.pos
    · rw [if_pos hpos] at hack ⊢
      cases hack
      rfl
    · rw [if_neg hpos] at hack ⊢
      cases hack
      rfl
  · rw [if_neg hdel] at hack ⊢
    by_cases hctrl : byte = Shell.CTRL_C
    · rw [if_pos hctrl] at hack ⊢
      cases hack
      rfl
    · rw [if_neg hctrl] at hack ⊢
      by_cases hprint : isPrintable byte = true
      · rw [if_pos hprint] at hack ⊢
        cases hack
        rfl
      · rw [if_neg hprint] at hack ⊢
        cases hack
        rfl

/-- **A key** that does not end the line. -/
theorem key_types (h : Types t line) (hroom : line.length < Shell.BUF_SIZE)
    (hb : byte ≠ Shell.ENTER) : ∃ t', (Session.key n load t s byte).1 = .shell t' s ∧
      Types t' ((⟨line, []⟩ : Editor).type byte).line := by
  obtain ⟨sh, hsh, hf⟩ := type_follows h.follows hroom byte
  exact ⟨_, key_type n load hsh hb, hf.size, hf.pos, hf.nonzero, hf.line⟩

theorem type_submitted (e : Editor) (hb : byte ≠ Shell.ENTER) :
    (e.type byte).submitted = e.submitted := by
  have hb' : ¬ byte = 0x0D := hb
  unfold Editor.type
  rw [if_neg hb']
  split
  · rfl
  · split
    · rfl
    · split
      · rfl
      · rfl

theorem type_line (e : Editor) (hb : byte ≠ Shell.ENTER) :
    e.type byte = { line := (e.type byte).line, submitted := e.submitted } := by
  rw [← type_submitted e hb]

/-- **Keys** that do not end the line. -/
theorem run_keys (h : Types t line) (henter : Shell.ENTER ∉ typed)
    (hroom : ∀ p, p <+: typed → (p.foldl Editor.type ⟨line, []⟩).line.length < Shell.BUF_SIZE) :
    ∃ t', (session n load).run (.shell t s) (typed.map .com1) = .shell t' s ∧
      Types t' (typed.foldl Editor.type ⟨line, []⟩).line := by
  induction typed generalizing t line with
  | nil => exact ⟨t, rfl, h⟩
  | cons byte typed ih =>
    obtain ⟨hb, htyped⟩ := not_or.mp (List.mem_cons.not.mp henter)
    obtain ⟨t', hkey, h'⟩ := key_types n load (s := s) h
      (hroom [] List.nil_prefix) (Ne.symm hb)
    have hline : (⟨line, []⟩ : Editor).type byte = ⟨((⟨line, []⟩ : Editor).type byte).line, []⟩ :=
      type_line ⟨line, []⟩ (Ne.symm hb)
    obtain ⟨t'', hrun, h''⟩ := ih h' htyped fun p hp => by
      have hp' := hroom (byte :: p) (List.cons_prefix_cons.mpr ⟨rfl, hp⟩)
      rwa [List.foldl_cons, hline] at hp'
    refine ⟨t'', ?_, ?_⟩
    · rw [List.map_cons, Transducer.run_cons]
      have hstep : (session n load).step (.shell t s) (.com1 byte) = .shell t' s := hkey
      rw [hstep, hrun]
    · rw [List.foldl_cons, hline]
      exact h''

/-- **Carriage return**. -/
theorem key_enter (h : Types t line) (hne : line ≠ []) (hroom : line.length < Shell.BUF_SIZE) :
    ∃ rest, (line ++ 0 :: rest).length = Shell.BUF_SIZE ∧
      Session.key n load t s Shell.ENTER =
        ((Session.exec n load { t with buffer := line ++ 0 :: rest } s).1,
          (ascii "\n").flatMap crlf ++
            (Session.exec n load { t with buffer := line ++ 0 :: rest } s).2) := by
  obtain ⟨tail, htail⟩ := h.line
  have hsize := h.size
  rw [← htail, List.length_append] at hsize
  obtain ⟨c, rest, rfl⟩ := List.exists_cons_of_length_pos (l := tail) (by omega)
  have hpos : t.pos ≠ 0 := by
    intro h0
    have hlen := h.pos
    rw [h0] at hlen
    exact hne (List.length_eq_zero_iff.mp hlen.symm)
  refine ⟨rest, by rw [List.length_append]; exact hsize, ?_⟩
  unfold Session.key
  rw [← htail, h.pos, store_length]
  dsimp only
  unfold Session.ack
  dsimp only
  rw [h.pos, get_length]
  dsimp only
  rw [if_pos rfl, store_length]
  dsimp only
  rw [if_pos hpos]

/-! ## 4. Commands -/

theorem execCmd_text {buffer : List UInt8} {last : Option Nat} {e : Exec} {c : Bios.Call}
    (h : Bios.execCmd buffer last = .done e) (hc : e.call = some c) : e.text = ascii "\n" := by
  unfold Bios.execCmd at h
  obtain ⟨tok, -, h⟩ := Outcome.of_bind_done h
  cases hres : tok.res with
  | none =>
    rw [hres] at h
    cases h
  | some p =>
    rw [hres] at h
    obtain ⟨name, -, h⟩ := Outcome.of_bind_done h
    cases hcmd : getCommand name with
    | none =>
      rw [hcmd] at h
      obtain ⟨text, -, h⟩ := Outcome.of_bind_done h
      cases h
      cases hc
    | some cmd =>
      rw [hcmd] at h
      obtain ⟨args, -, h⟩ := Outcome.of_bind_done h
      unfold checkArgs at h
      split at h
      · obtain ⟨text, -, h⟩ := Outcome.of_bind_done h
        cases h
        cases hc
      · split at h
        · obtain ⟨text, -, h⟩ := Outcome.of_bind_done h
          cases h
          cases hc
        · obtain ⟨argv, -, h⟩ := Outcome.of_bind_done h
          cases h
          rfl

/-- What is printed after a callback. -/
def afterCall : List UInt8 := (ascii "\n").flatMap crlf ++ Shell.PROMPT.flatMap crlf

/-- **A line that asks for a command**: its callback is called with the words. -/
theorem exec_call {cmd : Command} {args : List (List UInt8)} {junk : List UInt8}
    (h0 : 0 ∉ line) (hsize : (line ++ 0 :: junk).length = Shell.BUF_SIZE)
    (hws : words line = cmd.name :: args) (hcmd : cmd ∈ commands) (hacc : Accepts cmd args.length) :
    ∃ t' c, Session.exec n load { t with buffer := line ++ 0 :: junk } s =
        Session.call n load t' afterCall s c ∧ c.cmd = cmd ∧ c.Right (cmd.name :: args) ∧
      Types t' [] := by
  obtain ⟨e, he, hlen, ⟨-, hno⟩ | ⟨c, hc, hasks, hright⟩⟩ := @execCmd_eq _ junk t.last h0
  · exact absurd ⟨hcmd, args, hws, hacc⟩ (hno cmd)
  · obtain ⟨hmem, args', hwords, -⟩ := hasks
    have hname : c.cmd = cmd := List.inj_on_of_nodup_map commands_names.2 hmem hcmd
      (List.cons.inj (hwords.symm.trans hws)).1
    refine ⟨⟨e.buffer, 0, e.last⟩, c, ?_, hname, hws ▸ hright,
      ⟨hlen.trans hsize, rfl, List.not_mem_nil, List.nil_prefix⟩⟩
    unfold Session.exec
    dsimp only
    rw [he]
    dsimp only
    rw [hc, execCmd_text he hc]
    rfl

/-- Keys without a carriage return, with which the line asks for a command. -/
structure Asks (typed : List UInt8) (cmd : Command) (args : List (List UInt8)) : Prop where
  enter : Shell.ENTER ∉ typed
  room : ∀ p, p <+: typed → (edit p).line.length < Shell.BUF_SIZE
  words : words (edit typed).line = cmd.name :: args
  mem : cmd ∈ commands
  accepts : Accepts cmd args.length

/-- The keys, and the carriage return. -/
def entered (typed : List UInt8) : List Input := typed.map .com1 ++ [.com1 Shell.ENTER]

/-- **A command** that is typed. -/
theorem run_entered {cmd : Command} {args : List (List UInt8)} (h : Asks typed cmd args)
    (ht : Types t []) (s : FsState) :
    ∃ t' c, c.cmd = cmd ∧ c.Right (cmd.name :: args) ∧ Types t' [] ∧
      (session n load).run (.shell t s) (entered typed) =
        (Session.call n load t' afterCall s c).1 ∧
      (session n load).text (.shell t s) (entered typed) =
        (session n load).text (.shell t s) (typed.map .com1) ++
          ((ascii "\n").flatMap crlf ++ (Session.call n load t' afterCall s c).2) := by
  obtain ⟨t₁, hrun, h₁⟩ := run_keys n load (s := s) ht h.enter h.room
  have hne : (edit typed).line ≠ [] := by
    intro hnil
    have hws := h.words
    rw [hnil] at hws
    cases hws
  obtain ⟨rest, hsize, hkey⟩ := key_enter n load (s := s) h₁ hne
    (h.room typed (List.prefix_refl _))
  obtain ⟨t', c, hexec, hname, hright, ht'⟩ := exec_call n load (s := s) (t := t₁)
    h₁.nonzero hsize h.words h.mem h.accepts
  rw [hexec] at hkey
  refine ⟨t', c, hname, hright, ht', ?_, ?_⟩
  · rw [entered, Transducer.run_append, hrun]
    have hfst := congrArg Prod.fst hkey
    exact hfst
  · rw [entered, Transducer.text_append, hrun]
    refine congrArg (_ ++ ·) ?_
    exact (List.append_nil _).trans (congrArg Prod.snd hkey)

/-- The bytes of COM2, in `fs_recv_cpio`. -/
theorem run_host (tail : List UInt8) (x : Sys) (l : List UInt8) :
    (session n load).run (.host t tail x) (l.map .com2) = .host t tail (x.feed l) := by
  induction l generalizing x with
  | nil => rfl
  | cons b l ih =>
    have hstep : (session n load).step (.host t tail x) (.com2 b) =
        .host t tail (x.step (.com2 b)) := by
      cases x with
      | idle s => rfl
      | recv buff w s => rfl
      | panic msg => rfl
    rw [List.map_cons, Transducer.run_cons, hstep, ih, feed_cons]

/-- **`recvfs`**, and what comes on COM2. -/
theorem run_recvfs {cmd : Command} (hcmd : cmd.callback = .recvfs) (h : Asks typed cmd [])
    (ht : Types t []) {s' : FsState} {l : List UInt8}
    (hfeed : (Bios.fsRecvCpio s).feed l = .idle s') :
    ∃ t', (session n load).run (.shell t s) (entered typed ++ l.map .com2) = .shell t' s' ∧
      Types t' [] := by
  obtain ⟨t', c, hname, -, ht', hrun, -⟩ := run_entered n load h ht s
  have hcall : (Session.call n load t' afterCall s c).1 =
      .host t' afterCall (Bios.fsRecvCpio s) := by
    unfold Session.call
    rw [hname, if_pos hcmd]
  exact ⟨t', by rw [Transducer.run_append, hrun, hcall, run_host n load, hfeed]; rfl, ht'⟩

/-- **A command that shows something**. -/
theorem run_shown {cmd : Command} {args : List (List UInt8)} (h : Asks typed cmd args)
    (hcmd : cmd.callback ≠ .recvfs) (ht : Types t []) {text : List UInt8}
    (hrun : ∀ c : Bios.Call, c.cmd = cmd → c.Right (cmd.name :: args) →
      ∃ ret effects, c.run n = .done (ret, effects) ∧
        Said.all (effects.map (effectSaid n load s)) = ⟨text, true⟩) :
    (session n load).text (.shell t s) (entered typed) =
      (session n load).text (.shell t s) (typed.map .com1) ++
        ((ascii "\n").flatMap crlf ++ (text ++ afterCall)) := by
  obtain ⟨t', c, hname, hright, -, -, htext⟩ := run_entered n load h ht s
  obtain ⟨ret, effects, hc, hall⟩ := hrun c hname hright
  have hcall : (Session.call n load t' afterCall s c).2 = text ++ afterCall := by
    unfold Session.call
    rw [hname, if_neg hcmd, hc]
    dsimp only
    rw [hall]
    rfl
  rw [htext, hcall]

end

/-! ## 5. An archive -/

section
variable {σ : Nat → Nat} {buff k : Nat} {s : FsState} {files : List CpioFile} {stat : List UInt8}
  {fs : Nat → FsBlock} {mem : Nat → Mem}

/-- A session in the file system that `main` leaves. -/
theorem recv_bootFs (fs : Nat → FsBlock) (mem : Nat → Mem) :
    ∃ s, Bios.fsRecvCpio (bootFs fs mem) = .recv 4 .magic0 s ∧
      Loaded (fun b => (fs b).size) 4 5 s (List.range' 1 127) [] [] := by
  obtain ⟨s, hrecv, h⟩ := recv_initFs fs mem
  have hboot : bootFs fs mem = s := by
    unfold Bios.fsRecvCpio at hrecv
    unfold bootFs
    dsimp only
    split at hrecv
    · cases hrecv
    · rename_i halloc
      rw [halloc]
      cases hrecv
      rfl
  obtain ⟨m, hm, hframes⟩ := h.frames.alloc (by decide) (by decide)
  refine ⟨{ s with frames := m }, ?_, h.layout.of_links rfl rfl rfl, hframes, by decide,
    h.stale, .nil⟩
  unfold Bios.fsRecvCpio
  rw [hboot, hm]

/-- **An archive**, where there is no file yet. -/
theorem feed_archive (h : Loaded σ buff k s (List.range' 1 127) [] []) (hk : k ≤ 65)
    (hfiles : ∀ f ∈ files, Loadable f) (hroom : totalBlocks files ≤ 127)
    (hstat : stat.length = 18) :
    ∃ k' s' free table, (Sys.recv buff .magic0 s).feed (cpioArchive files stat) = .idle s' ∧
      Layout s' free table ∧ List.Forall₂ (Stores σ buff k' s') table (slots 1 files).reverse := by
  obtain ⟨k', s₁, free, table, hfeed, h₁⟩ := load_files files (b := 1) h hfiles (by omega) hk
  rw [List.append_nil] at h₁
  have hname : (cpioTrailer stat).name.length ≤ 21 := by
    change trailer.length ≤ 21
    decide
  have hdata : (cpioTrailer stat).data.length < 2 ^ 32 := by simp [cpioTrailer]
  obtain ⟨-, -, hholds⟩ := cpioHead_fields buff s₁ (f := cpioTrailer stat) hstat hname hdata
  change Holds _ trailer at hholds
  let s₂ := s₁.pokes buff 0 (cpioHead (cpioTrailer stat))
  let s₃ : FsState := { s₂ with frames := freeFrame s₂.frames buff }
  have hend : recvFile buff s₂ = .idle s₃ := by
    unfold recvFile
    exact if_pos ((strcmp_eq_zero hholds (by decide) (by decide)).mpr rfl)
  have hkept₂ : Kept buff k' [] s₁ s₂ := kept_pokes (.inl (Nat.le_refl buff))
  have hkept : Kept buff k' [] s₁ s₃ := ⟨hkept₂.body, hkept₂.mem⟩
  refine ⟨k', s₃, free, table, ?_, h₁.layout.of_links rfl rfl rfl,
    stores_kept h₁.stores hkept (fun _ _ _ _ => List.not_mem_nil) (Nat.le_refl k')⟩
  rw [cpioArchive, feed_append, hfeed, cpioEntry, feed_append, feed_head hstat hname hdata, hend,
    feed_idle]

/-- What there is after the session, for the `ls` and the `p` of a file that survives. -/
structure Holding (s : FsState) (free : List Nat) (table : List Entry)
    (ps : List (Nat × CpioFile)) : Prop where
  layout : Layout s free table
  kinds : Kinds s
  ordered : Ordered s
  found : ∀ p ∈ ps, fsFind s (cstr p.2.name) = p.1 ∧ p.1 ≠ 0
  stored : List.Forall₂ (fun (e : Entry) (p : Nat × CpioFile) => e.1 = p.1 ∧
    (s.fs e.1).type = FS_TYPE_INODE ∧ Holds (s.fs e.1).name p.2.name ∧
    fsPrintFile s p.1 = p.2.data ∧ fsGetFileSize s p.1 = p.2.data.length) table ps

theorem forall₂_imp_mem {α β : Type} {R S : α → β → Prop} {l : List α} {l' : List β}
    (h : List.Forall₂ R l l') (himp : ∀ a ∈ l, ∀ b ∈ l', R a b → S a b) : List.Forall₂ S l l' := by
  induction h with
  | nil => exact .nil
  | cons hab _ ih =>
    exact .cons (himp _ List.mem_cons_self _ List.mem_cons_self hab)
      (ih fun a ha b hb => himp a (List.mem_cons_of_mem _ ha) b (List.mem_cons_of_mem _ hb))

/-- Bytes on COM2 keep to the steps. -/
theorem feed_kinds {x : Sys} (l : List UInt8) (ho : x.Ordered) (hk : x.Kinds) :
    (x.feed l).Ordered ∧ (x.feed l).Kinds := by
  induction l generalizing x with
  | nil => exact ⟨ho, hk⟩
  | cons c l ih =>
    have hs : Step x (.com2 c) (x.step (.com2 c)) := rfl
    exact ih (step_ordered ho hs) (step_kinds hk ho hs)

theorem bootFs_start (fs : Nat → FsBlock) (mem : Nat → Mem) :
    (Sys.idle (bootFs fs mem)).Ordered ∧ (Sys.idle (bootFs fs mem)).Kinds := by
  obtain ⟨frames, hboot⟩ : ∃ frames, bootFs fs mem = { initFs fs mem with frames := frames } := by
    unfold bootFs
    dsimp only
    split
    · exact ⟨_, rfl⟩
    · exact ⟨_, rfl⟩
  rw [hboot]
  refine ⟨(initFs_ordered fs mem).of_links rfl rfl rfl, fun s hs => ?_⟩
  cases hs
  exact (initFs_kinds fs mem).of_fields rfl rfl (fun _ => rfl) fun _ => rfl

/-- **What `recvfs` leaves** of files that survive. -/
theorem holding (mem : Nat → Mem) (h : Packed files stat)
    (hs : ∀ p ∈ slots 1 files, Survives (fs p.1).size p.2) :
    ∃ s free table, (Bios.fsRecvCpio (bootFs fs mem)).feed (cpioArchive files stat) = .idle s ∧
      Holding s free table (slots 1 files).reverse := by
  have hload : ∀ f ∈ files, Loadable f := by
    intro f hf
    rw [← slots_snd 1 files] at hf
    obtain ⟨p, hp, rfl⟩ := List.mem_map.mp hf
    exact h.loadable (mem_slots hp) (hs p hp).name (hs p hp).inStep
  obtain ⟨s₀, hrecv, h₀⟩ := recv_bootFs fs mem
  obtain ⟨k, s, free, table, hfeed, hlayout, hstores⟩ :=
    feed_archive h₀ (by decide) hload h.fits h.stat
  have hnd : ((slots 1 files).reverse.map fun p => p.2.name).Nodup := by
    rw [List.map_reverse, List.nodup_reverse, slots_names]
    exact h.nodup
  have hnames : ∀ p ∈ (slots 1 files).reverse, 0 ∉ p.2.name ∧ p.2.name.length ≤ 21 := by
    intro p hp
    obtain ⟨hnul, -, hlen⟩ := h.names p.2 (mem_slots (List.mem_reverse.mp hp))
    exact ⟨hnul, hlen⟩
  rw [← hrecv] at hfeed
  obtain ⟨hord₀, hkinds₀⟩ := bootFs_start fs mem
  have hstep : Step (.idle (bootFs fs mem)) .recvfs (Bios.fsRecvCpio (bootFs fs mem)) := rfl
  obtain ⟨hord, hkinds⟩ := feed_kinds (cpioArchive files stat) (step_ordered hord₀ hstep)
    (step_kinds hkinds₀ hord₀ hstep)
  rw [hfeed] at hord hkinds
  refine ⟨s, free, table, hfeed, hlayout, hkinds s rfl, hord, fun p hp => ?_, ?_⟩
  · obtain ⟨hfind, h0, -⟩ := find_loaded hlayout hstores hnames hnd hp
    exact ⟨hfind, h0⟩
  · refine forall₂_imp_mem hstores fun e he p hp hst => ?_
    obtain ⟨hdata, hsize⟩ := (hst.read_iff hlayout he).mpr
      ⟨(hs p (List.mem_reverse.mp hp)).data, (hs p (List.mem_reverse.mp hp)).size⟩
    exact ⟨hst.first, hst.type, hst.name, hdata, hsize⟩

end

/-! ## 6. What is shown -/

theorem printed_of_writes {m : Out Unit} {l : List UInt8} (h : Writes com1Line m l) :
    saidOf m = ⟨l, true⟩ := by
  obtain ⟨_, file', hrun, -, hcom1⟩ := h blankStdout trivial
  have hl : file'.com1 = l := hcom1
  simp [saidOf, textOf, printed, hrun, hl]

section
variable {n : Nat} {s : FsState} {free : List Nat} {table : List Entry} {files : List CpioFile}

theorem Said.all_one (a : Said) : Said.all [a] = a := by
  cases a with
  | mk text ends =>
    cases ends with
    | false => rfl
    | true => simp [Said.all, Said.next]

/-- What `p` prints of a file. -/
theorem Holding.printFile {p : Nat × CpioFile} {ps : List (Nat × CpioFile)}
    (h : Holding s free table ps) (hp : p ∈ ps) :
    Writes com1Line (fsPrintFileCom1 (fun _ => cstr p.2.name) n s 0)
      (p.2.data.flatMap sentByte) := by
  obtain ⟨hfind, h0⟩ := h.found p hp
  obtain ⟨e, -, he, htype, -, hdata, -⟩ := forall₂_left h.stored.flip hp
  have htype : ¬ (s.fs p.1).type ≠ FS_TYPE_INODE := not_not.mpr (he ▸ htype)
  unfold fsPrintFileCom1
  dsimp only
  rw [hfind, if_neg h0, if_neg htype, ← hdata]
  exact blocks_write s _

/-- What `ls` prints. -/
theorem Holding.listDir (h : Holding s free table (slots 1 files).reverse)
    (hnames : ∀ f ∈ files, 0 ∉ f.name ∧ f.name.length ≤ 21) (hn : FS_NAME_SIZE ≤ n) :
    Writes com1Line (fsListDirCom1 n s none) ((files.reverse.flatMap fun f =>
      lineText 0x2D 0x77 f.data.length f.name).flatMap crlf) := by
  obtain ⟨l, hl, hkind⟩ := h.kinds.entries
  obtain rfl := h.layout.dir.unique hl
  have hlines : ∀ {es : List Entry} {ps : List (Nat × CpioFile)},
      List.Forall₂ (fun (e : Entry) (p : Nat × CpioFile) => e.1 = p.1 ∧
        (s.fs e.1).type = FS_TYPE_INODE ∧ Holds (s.fs e.1).name p.2.name ∧
        fsPrintFile s p.1 = p.2.data ∧ fsGetFileSize s p.1 = p.2.data.length) es ps →
      es ⊆ table → (∀ p ∈ ps, 0 ∉ p.2.name ∧ p.2.name.length ≤ 21) →
      Writes com1Line (forM ((es.map Prod.fst).map (listed s)) (listLine n))
        (((ps.map Prod.snd).flatMap fun f =>
          lineText 0x2D 0x77 f.data.length f.name).flatMap crlf) := by
    intro es ps hes hsub hps
    induction hes with
    | nil => exact .pure _
    | @cons e p es ps hep _ ih =>
      obtain ⟨he, htype, hname, -, hsize⟩ := hep
      obtain ⟨h0, hlen⟩ := hps p List.mem_cons_self
      have hflags := (hkind e.1 (List.mem_map_of_mem (hsub List.mem_cons_self))).2
      have hline := listLine_writes htype hflags (hname.to FS_NAME_SIZE) h0
        (Nat.lt_succ_of_le hlen) hn
      rw [he, hsize] at hline
      have hrest := ih (fun x hx => hsub (List.mem_cons_of_mem e hx))
        fun x hx => hps x (List.mem_cons_of_mem p hx)
      rw [List.map_cons, List.map_cons, List.forM_cons, he]
      have hboth := hline.bind fun _ => hrest
      rwa [← List.flatMap_append] at hboth
  have hroot : ¬ (s.fs 0).type ≠ FS_TYPE_DIR := not_not.mpr h.kinds.root
  obtain ⟨l, hl', hb⟩ := h.ordered.entries h.ordered.root
  obtain rfl := h.layout.dir.unique hl'
  have hblock : fsListBlock s 0 = .dir ((table.map Prod.fst).map (listed s)) := by
    rw [fsListBlock, if_neg hroot, h.layout.dir.walk hb.length_le]
  unfold fsListDirCom1
  rw [hblock]
  have hps : ∀ p ∈ (slots 1 files).reverse, 0 ∉ p.2.name ∧ p.2.name.length ≤ 21 :=
    fun p hp => hnames p.2 (mem_slots (List.mem_reverse.mp hp))
  have hall := hlines h.stored (List.Subset.refl _) hps
  rwa [List.map_reverse, slots_snd] at hall

variable {stat : List UInt8} {fs : Nat → FsBlock} {mem : Nat → Mem} {recv cmd : Command}
  {args : List (List UInt8)} {keys keys' : List UInt8} {load : FsState → BitVec 32 → Option UInt8}

/-- The keys of `recvfs`, and the archive. -/
def receiving (keys : List UInt8) (files : List CpioFile) (stat : List UInt8) : List Input :=
  entered keys ++ (cpioArchive files stat).map .com2

/-- **A command after `recvfs`** that shows something. -/
theorem shown (h : Packed files stat) (hs : ∀ p ∈ slots 1 files, Survives (fs p.1).size p.2)
    (hrecv : recv.callback = .recvfs) (hkeys : Asks keys recv []) (hcmd : cmd.callback ≠ .recvfs)
    (hkeys' : Asks keys' cmd args) {text : List UInt8}
    (hrun : ∀ s free table, Holding s free table (slots 1 files).reverse → ∀ c : Bios.Call,
      c.cmd = cmd → c.Right (cmd.name :: args) → ∃ ret effects, c.run n = .done (ret, effects) ∧
        Said.all (effects.map (effectSaid n load s)) = ⟨text, true⟩) :
    consoleText n load fs mem (receiving keys files stat ++ entered keys') =
      consoleText n load fs mem (receiving keys files stat ++ keys'.map .com1) ++
        ((ascii "\n").flatMap crlf ++ (text ++ afterCall)) := by
  obtain ⟨s, free, table, hfeed, hholding⟩ := holding mem h hs
  obtain ⟨t, ht, htypes⟩ := run_recvfs n load hrecv hkeys types_start hfeed
  have hshown := run_shown n load hkeys' hcmd htypes (hrun s free table hholding)
  have hsplit : ∀ is, consoleText n load fs mem (receiving keys files stat ++ is) =
      consoleText n load fs mem (receiving keys files stat) ++
        (session n load).text (.shell t s) is := by
    intro is
    unfold consoleText
    rw [Transducer.text_append, receiving, ht, List.append_assoc]
  rw [hsplit, hsplit, hshown]
  simp only [List.append_assoc]

/-- **A file is received and shown**: whatever was packed and survives is sent by `p`, after
    `recvfs` and the archive, with a carriage return before each line feed and without its
    NULs. -/
theorem file_shown (h : Packed files stat) (hs : ∀ p ∈ slots 1 files, Survives (fs p.1).size p.2)
    (hrecv : recv.callback = .recvfs) (hkeys : Asks keys recv []) (hcmd : cmd.callback = .printFile)
    {f : CpioFile} (hf : f ∈ files) (hkeys' : Asks keys' cmd [f.name]) :
    consoleText n load fs mem (receiving keys files stat ++ entered keys') =
      consoleText n load fs mem (receiving keys files stat ++ keys'.map .com1) ++
        ((ascii "\n").flatMap crlf ++ (f.data.flatMap sentByte ++ afterCall)) := by
  refine shown h hs hrecv hkeys (by simp [hcmd]) hkeys' fun s free table hholding c hc hright => ?_
  rw [← slots_snd 1 files] at hf
  obtain ⟨p, hp, rfl⟩ := List.mem_map.mp hf
  have hargc : c.argc = 2 := hright.argc
  have harg : c.arg 1 = .done p.2.name := hright.argv 1 _ rfl
  refine ⟨0, [.printFile p.2.name], ?_, ?_⟩
  · unfold Call.run Bios.printFile
    rw [hc, hcmd]
    dsimp only
    rw [hargc, if_neg (by decide), Outcome.bind_done harg]
  · rw [List.map_singleton, Said.all_one]
    exact printed_of_writes (hholding.printFile (List.mem_reverse.mpr hp))

/-- **What was received is listed**: `ls` has a line for each file, the last one first, with its
    size and its name. -/
theorem listing_shown (h : Packed files stat)
    (hs : ∀ p ∈ slots 1 files, Survives (fs p.1).size p.2) (hrecv : recv.callback = .recvfs)
    (hkeys : Asks keys recv []) (hcmd : cmd.callback = .ls) (hkeys' : Asks keys' cmd [])
    (hn : FS_NAME_SIZE ≤ n) :
    consoleText n load fs mem (receiving keys files stat ++ entered keys') =
      consoleText n load fs mem (receiving keys files stat ++ keys'.map .com1) ++
        ((ascii "\n").flatMap crlf ++ ((files.reverse.flatMap fun f =>
          lineText 0x2D 0x77 f.data.length f.name).flatMap crlf ++ afterCall)) := by
  refine shown h hs hrecv hkeys (by simp [hcmd]) hkeys' fun s free table hholding c hc hright => ?_
  have hargc : c.argc = 1 := hright.argc
  refine ⟨0, [.listDir none], ?_, ?_⟩
  · unfold Call.run Bios.ls
    rw [hc, hcmd]
    dsimp only
    rw [hargc, if_neg (by decide)]
  · rw [List.map_singleton, Said.all_one]
    have hnames : ∀ f ∈ files, 0 ∉ f.name ∧ f.name.length ≤ 21 :=
      fun f hf => ⟨(h.names f hf).1, (h.names f hf).2.2⟩
    exact printed_of_writes (hholding.listDir hnames hn)

/-- The keys of a line without a correction. -/
theorem asks_of_line {line : List UInt8} (hprint : line.all isPrintable = true)
    (hlen : line.length < Shell.BUF_SIZE) (hws : words line = cmd.name :: args)
    (hmem : cmd ∈ commands) (hacc : Accepts cmd args.length) : Asks line cmd args := by
  have hline : ∀ c ∈ line, 0x20 ≤ c ∧ c ≤ 0x7E :=
    fun c hc => (isPrintable_iff c).mp (List.all_eq_true.mp hprint c hc)
  have hedit : ∀ p, p <+: line → (edit p).line = p := by
    intro p hp
    have hp' : ∀ c ∈ p, 0x20 ≤ c ∧ c ≤ 0x7E := fun c hc => hline c (hp.subset hc)
    clear hp
    induction p using List.reverseRecOn with
    | nil => rfl
    | append_singleton p c ih =>
      have hc := hp' c (List.mem_append_right _ List.mem_cons_self)
      rw [edit_concat, Editor.type, if_pos hc]
      exact congrArg (· ++ [c]) (ih fun x hx => hp' x (List.mem_append_left _ hx))
  refine ⟨fun hm => absurd (hline _ hm).1 (by decide), fun p hp => ?_, ?_, hmem, hacc⟩
  · rw [hedit p hp]
    exact Nat.lt_of_le_of_lt hp.length_le hlen
  · rw [hedit line (List.prefix_refl _)]
    exact hws

end

/-- A line of the table. -/
def command (i : Fin 6) : Command := commands.get i

theorem asks_recvfs : Asks (ascii "recvfs") (command 4) [] :=
  asks_of_line (by decide +kernel) (by decide) (by decide) (by decide) (.inl rfl)

theorem survives_oneByteFile : ∀ p ∈ slots 1 [oneByteFile [0x61]],
    Survives (zeroBlocks p.1).size p.2 := by
  intro p hp
  obtain rfl := List.mem_singleton.mp hp
  exact ⟨by decide, .inl rfl, by simp [oneByteFile]⟩

/-- "recvfs", the archive of the file `a` of the byte 1, "p a". -/
theorem file_shown_a : consoleText 22 (fun _ _ => none) zeroBlocks (fun _ _ => 0)
      (receiving (ascii "recvfs") [oneByteFile [0x61]] (List.replicate 18 0) ++
        entered (ascii "p a")) =
    consoleText 22 (fun _ _ => none) zeroBlocks (fun _ _ => 0)
      (receiving (ascii "recvfs") [oneByteFile [0x61]] (List.replicate 18 0) ++
        (ascii "p a").map .com1) ++ [0x0D, 0x0A, 0x01, 0x0D, 0x0A, 0x24, 0x20] := by
  have hrecv : (command 4).callback = .recvfs := rfl
  have hcmd : (command 3).callback = .printFile := rfl
  have hp : Asks (ascii "p a") (command 3) [[0x61]] :=
    asks_of_line (by decide +kernel) (by decide) (by decide) (by decide) (.inr (by decide))
  have hpacked : Packed [oneByteFile [0x61]] (List.replicate 18 0) :=
    packed_oneByteFile (by decide) (by decide) (by decide)
  have hshown := @file_shown 22 _ _ zeroBlocks (fun _ _ => 0) _ _ _ _ (fun _ _ => none) hpacked
    survives_oneByteFile hrecv asks_recvfs hcmd (oneByteFile [0x61]) List.mem_cons_self hp
  have hdata : (oneByteFile [0x61]).data.flatMap sentByte = [0x01] := by decide
  have htail : (ascii "\n").flatMap crlf ++ ([0x01] ++ afterCall) =
      [0x0D, 0x0A, 0x01, 0x0D, 0x0A, 0x24, 0x20] := by decide
  rw [hdata, htail] at hshown
  exact hshown

/-- "recvfs", the archive of the file `a` of the byte 1, "ls". -/
theorem listing_shown_a : consoleText 22 (fun _ _ => none) zeroBlocks (fun _ _ => 0)
      (receiving (ascii "recvfs") [oneByteFile [0x61]] (List.replicate 18 0) ++
        entered (ascii "ls")) =
    consoleText 22 (fun _ _ => none) zeroBlocks (fun _ _ => 0)
      (receiving (ascii "recvfs") [oneByteFile [0x61]] (List.replicate 18 0) ++
        (ascii "ls").map .com1) ++ ascii "\r\n-rw 1\ta\r\n\r\n$ " := by
  have hrecv : (command 4).callback = .recvfs := rfl
  have hcmd : (command 2).callback = .ls := rfl
  have hls : Asks (ascii "ls") (command 2) [] :=
    asks_of_line (by decide +kernel) (by decide) (by decide) (by decide) (.inl rfl)
  have hpacked : Packed [oneByteFile [0x61]] (List.replicate 18 0) :=
    packed_oneByteFile (by decide) (by decide) (by decide)
  have hshown := @listing_shown 22 _ _ zeroBlocks (fun _ _ => 0) _ _ _ _ (fun _ _ => none) hpacked
    survives_oneByteFile hrecv asks_recvfs hcmd hls (Nat.le_refl FS_NAME_SIZE)
  have hline : (lineText 0x2D 0x77 (oneByteFile [0x61]).data.length
      (oneByteFile [0x61]).name).flatMap crlf = ascii "-rw 1\ta\r\n" := by decide
  have htail : (ascii "\n").flatMap crlf ++ (ascii "-rw 1\ta\r\n" ++ afterCall) =
      ascii "\r\n-rw 1\ta\r\n\r\n$ " := by decide
  rw [List.reverse_singleton, List.flatMap_singleton, hline, htail] at hshown
  exact hshown

end LsePc.System
