/-
  File:      LsePc/System/Console.lean
  Subject:   The BIOS from `main` on as a program over the serial lines: `main`
             (sw/bios/src/main.c), `shell_run`, `ack_cmd` and `exec_cmd` (shell.c) and the
             callbacks of command.c.

  * `main`, `shellRun`, `ackCmd`, `execCmd`, `callback`: the functions. A loop has `n` turns at
    most. After a panic and after an access out of bounds nothing more is done;
  * `Session`: where the BIOS waits for a byte, `Session.next`: what it does until the next one
    and what it prints, `session`: the machine of the two;
  * **result** (`main_keeps`): the program is the machine, however the bytes come and however
    long it polls. In the end nothing is printed that is not due, and before it takes a byte
    it has printed all that was.
-/
import LsePc.Bios.Output
import LsePc.Bios.Shell
import LsePc.System.Recv

namespace LsePc.System

open LsePc.Lib LsePc.Host LsePc.Bios

/-! ## 1. The program -/

/-- The buffer and the position of `shell_run`, and the static pointer of `strtok_c`. -/
structure Term where
  buffer : List UInt8
  pos : UInt16
  last : Option Nat

section
variable (n : Nat) (load : FsState → BitVec 32 → Option UInt8)

/-- The loop of `memory`. An address that is not mapped is a page fault. -/
def memoryLoop (s : FsState) (address : BitVec 32) (length : Nat) : Console Unit :=
  .each (fun i => match load s (address + BitVec.ofNat 32 i) with
    | none => .more
    | some c => match dumpByte c with
      | .done text => send text
      | _ => .more) (List.range length)

/-- What the callbacks do, apart from that of `recvfs`. -/
def effect (s : FsState) : Effect → Console Unit
  | .print text => uart1Write text
  | .dump address length => memoryLoop load s address length.toNat
  | .listDir path => print (fsListDirCom1 n s (path.map cstr))
  | .printFile path => print (fsPrintFileCom1 (fun _ => cstr path) n s 0)
  | .stats => do
    print (frameStatsCom1 n s.frames)
    print (fsStatsCom1 n s)
  | .recvCpio => .more

def callback (s : FsState) (c : Bios.Call) : Console FsState :=
  if c.cmd.callback = .recvfs then do
    match ← fsRecvCpio n s with
    | .idle s => pure s
    | _ => .more
  else
    match c.run n with
    | .done (_, effects) => do
      Prog.each (effect n load s) effects
      pure s
    | _ => .more

def execCmd (t : Term) (s : FsState) : Console (Term × FsState) :=
  match Bios.execCmd t.buffer t.last with
  | .done e => do
    let s ← (match e.call with
      | some c => callback n load s c
      | none => pure s : Console FsState)
    uart1Write e.text
    pure ({ t with buffer := e.buffer, last := e.last }, s)
  | _ => .more

def ackCmd (t : Term) (s : FsState) : Console (Term × FsState) :=
  match t.buffer[t.pos.toNat]? with
  | none => .more
  | some byte =>
    if byte = Shell.ENTER then
      match store t.buffer t.pos.toNat 0 with
      | .done buffer => do
        uart1Write (ascii "\n")
        let (t, s) ← (
          if t.pos ≠ 0 then execCmd n load { t with buffer := buffer } s
          else pure ({ t with buffer := buffer }, s) : Console (Term × FsState))
        uart1Write Shell.PROMPT
        pure ({ t with pos := 0 }, s)
      | _ => .more
    else if byte = Shell.DEL ∨ byte = Shell.BACKSPACE then
      if 0 < t.pos then do
        send [Shell.BACKSPACE]
        send [BLANK]
        send [Shell.BACKSPACE]
        pure ({ t with pos := t.pos - 1 }, s)
      else pure (t, s)
    else if byte = Shell.CTRL_C then do
      uart1Write (ascii "\n")
      uart1Write Shell.PROMPT
      pure ({ t with pos := 0 }, s)
    else if isPrintable byte then do
      send [byte]
      pure ({ t with pos := t.pos + 1 }, s)
    else pure (t, s)

/-- The turns of `shell_run`. -/
def shellLoop : Nat → Term → FsState → Console Unit
  | 0, _, _ => .more
  | k + 1, t, s => do
    let byte ← ask (.readb .com1)
    match store t.buffer t.pos.toNat byte with
    | .done buffer => do
      let (t, s) ← ackCmd n load { t with buffer := buffer } s
      shellLoop k t s
    | _ => .more

def Term.start : Term :=
  { buffer := List.replicate Shell.BUF_SIZE 0, pos := 0, last := none }

def shellRun (s : FsState) : Console Unit := do
  uart1Write Shell.PROMPT
  shellLoop n load n .start s

/-- `printf("..%p..", p)`. -/
def printfP (format : List UInt8) (p : Nat) : Out Unit := do
  let _ ← vprintf (fun _ => cstr []) n format [BitVec.ofNat 32 p]
  pure ()

/-- After `init_frames`, `setup_minimal_idt` and `init_fs`: `initFs` and the frame of the table of
    interrupts. -/
def bootFs (fs : Nat → FsBlock) (mem : Nat → Mem) : FsState :=
  let s := initFs fs mem
  match allocFrame s.frames with
  | some (_, frames) => { s with frames := frames }
  | none => s

/-- The frames that they print are the first two. -/
def main (fs : Nat → FsBlock) (mem : Nat → Mem) : Console Unit := do
  print (printfP n (ascii "IDT: %p\n") (frameToVirt 2))
  print (printfP n (ascii "FS: %p\n") (frameToVirt 3))
  shellRun n load (bootFs fs mem)

end

/-! ## 2. The machine -/

/-- What a program prints that takes no byte, and if it comes to its end. -/
structure Said where
  text : List UInt8
  ends : Bool

/-- One after the other. -/
def Said.next (a b : Said) : Said := if a.ends then ⟨a.text ++ b.text, b.ends⟩ else a

def Said.all (l : List Said) : Said := l.foldr Said.next ⟨[], true⟩

def saidOf {α : Type} (m : Out α) : Said := ⟨textOf m, (printed m).isSome⟩

/-- Where the BIOS waits for a byte: in the shell; in `fs_recv_cpio`, with what it prints when
    that is over; nowhere. -/
inductive Session where
  | shell (t : Term) (s : FsState)
  | recv (t : Term) (tail : List UInt8) (buff : Nat) (w : Wait) (s : FsState)
  | stuck

def Session.host (t : Term) (tail : List UInt8) : Sys → Session
  | .idle s => .shell t s
  | .recv buff w s => .recv t tail buff w s
  | .panic _ => .stuck

section
variable (n : Nat) (load : FsState → BitVec 32 → Option UInt8)

def byteSaid (s : FsState) (address : BitVec 32) : Said :=
  match load s address with
  | none => ⟨[], false⟩
  | some c => match dumpByte c with
    | .done text => ⟨text, true⟩
    | _ => ⟨[], false⟩

def effectSaid (s : FsState) : Effect → Said
  | .print text => ⟨text.flatMap crlf, true⟩
  | .dump address length =>
    .all ((List.range length.toNat).map fun i => byteSaid load s (address + BitVec.ofNat 32 i))
  | .listDir path => saidOf (fsListDirCom1 n s (path.map cstr))
  | .printFile path => saidOf (fsPrintFileCom1 (fun _ => cstr path) n s 0)
  | .stats => (saidOf (frameStatsCom1 n s.frames)).next (saidOf (fsStatsCom1 n s))
  | .recvCpio => ⟨[], false⟩

/-- A callback, and the `tail` that `exec_cmd` and `ack_cmd` print after it. -/
def Session.call (t : Term) (tail : List UInt8) (s : FsState) (c : Bios.Call) :
    Session × List UInt8 :=
  if c.cmd.callback = .recvfs then
    (.host t tail (Bios.fsRecvCpio s), afterRecv tail (Bios.fsRecvCpio s))
  else
    match c.run n with
    | .done (_, effects) =>
      let a := Said.all (effects.map (effectSaid n load s))
      if a.ends then (.shell t s, a.text ++ tail) else (.stuck, a.text)
    | _ => (.stuck, [])

/-- From `exec_cmd` to the next byte. -/
def Session.exec (t : Term) (s : FsState) : Session × List UInt8 :=
  match Bios.execCmd t.buffer t.last with
  | .done e =>
    let t : Term := { buffer := e.buffer, pos := 0, last := e.last }
    let tail := e.text.flatMap crlf ++ Shell.PROMPT.flatMap crlf
    match e.call with
    | some c => Session.call n load t tail s c
    | none => (.shell t s, tail)
  | _ => (.stuck, [])

/-- From `ack_cmd` to the next byte. -/
def Session.ack (t : Term) (s : FsState) : Session × List UInt8 :=
  match t.buffer[t.pos.toNat]? with
  | none => (.stuck, [])
  | some byte =>
    if byte = Shell.ENTER then
      match store t.buffer t.pos.toNat 0 with
      | .done buffer =>
        let r := if t.pos ≠ 0 then Session.exec n load { t with buffer := buffer } s
          else (.shell { t with buffer := buffer, pos := 0 } s, Shell.PROMPT.flatMap crlf)
        (r.1, (ascii "\n").flatMap crlf ++ r.2)
      | _ => (.stuck, [])
    else if byte = Shell.DEL ∨ byte = Shell.BACKSPACE then
      if 0 < t.pos then
        (.shell { t with pos := t.pos - 1 } s, [Shell.BACKSPACE, BLANK, Shell.BACKSPACE])
      else (.shell t s, [])
    else if byte = Shell.CTRL_C then
      (.shell { t with pos := 0 } s, (ascii "\n").flatMap crlf ++ Shell.PROMPT.flatMap crlf)
    else if isPrintable byte then (.shell { t with pos := t.pos + 1 } s, [byte])
    else (.shell t s, [])

/-- A key. -/
def Session.key (t : Term) (s : FsState) (byte : UInt8) : Session × List UInt8 :=
  match store t.buffer t.pos.toNat byte with
  | .done buffer => Session.ack n load { t with buffer := buffer } s
  | _ => (.stuck, [])

/-- The shell takes no byte of COM2. -/
def Session.next : Session → Input → Session × List UInt8
  | .shell t s, .com1 byte => Session.key n load t s byte
  | .recv t tail buff w s, i =>
    let x := (Sys.recv buff w s).step i
    (.host t tail x, recvReply n (.recv buff w s) i ++ afterRecv tail x)
  | x, _ => (x, [])

/-- **The machine**. -/
def session : Transducer Session Input UInt8 where
  step x i := (Session.next n load x i).1
  reply x i := (Session.next n load x i).2

theorem session_hosts (t : Term) (tail : List UInt8) :
    Hosts (session n load) (.host t tail) tail n :=
  ⟨fun _ _ _ _ _ => rfl, fun _ _ _ _ _ => rfl⟩

end

/-! ## 3. The program is the machine -/

section
variable {σ : Type} {M : Transducer σ Input UInt8} {α β : Type} {a b : Said}

variable (M) in
/-- The program prints this and takes no byte. -/
def Tells (p : Console α) (a : Said) : Prop :=
  ∀ (t : Talk σ UInt8) (x : σ) (rest : List UInt8),
    t.Owes x (a.text ++ if a.ends then rest else []) →
    Keeps M p t fun _ u => a.ends = true ∧ u.Owes x rest

theorem tells_send (text : List UInt8) : Tells M (send text) ⟨text, true⟩ := by
  intro t x rest h
  exact (send_keeps h).mono fun _ u _ hu => ⟨rfl, hu⟩

theorem tells_more : Tells M (.more : Console α) ⟨[], false⟩ := fun _ _ _ h => .more h.prompt

theorem tells_print (m : Out α) : Tells M (print m) (saidOf m) := by
  intro t x rest h
  cases hm : printed m with
  | none =>
    have hprint : print m = .more := by simp [print, hm]
    rw [hprint]
    exact .more h.prompt
  | some text =>
    have hends : (saidOf m).ends = true := by simp [saidOf, hm]
    rw [hends, if_pos rfl] at h
    exact (print_keeps h).mono fun _ u _ hu => ⟨hends, hu⟩

theorem Tells.bind {p : Console α} {f : α → Console β} (hp : Tells M p a)
    (hf : ∀ r, Tells M (f r) b) : Tells M (p.bind f) (a.next b) := by
  intro t x rest h
  unfold Said.next at h ⊢
  cases ha : a.ends with
  | false =>
    rw [ha, if_neg Bool.false_ne_true, ha] at h
    refine .bind ((hp t x [] (by rwa [ha])).mono fun r u _ hu => ?_)
    exact absurd (ha.symm.trans hu.1) Bool.false_ne_true
  | true =>
    rw [ha, if_pos rfl] at h
    rw [if_pos rfl]
    refine .bind ((hp t x _ ?_).mono fun r u _ hu => hf r u x rest hu.2)
    rw [ha, if_pos rfl, ← List.append_assoc]
    exact h

theorem Tells.each {g : β → Console Unit} {f : β → Said} (h : ∀ b, Tells M (g b) (f b))
    (l : List β) : Tells M (Prog.each g l) (.all (l.map f)) := by
  induction l with
  | nil => exact fun t x rest h => .ret h.prompt ⟨rfl, h⟩
  | cons b l ih => exact (h b).bind fun _ => ih

variable {n : Nat} {load : FsState → BitVec 32 → Option UInt8}

theorem memoryLoop_tells (s : FsState) (address : BitVec 32) (length : Nat) :
    Tells M (memoryLoop load s address length)
      (.all ((List.range length).map fun i => byteSaid load s (address + BitVec.ofNat 32 i))) := by
  refine .each (fun i => ?_) _
  unfold byteSaid
  split
  · exact tells_more
  · split
    · exact tells_send _
    · exact tells_more

theorem effect_tells (s : FsState) (e : Effect) :
    Tells M (effect n load s e) (effectSaid n load s e) := by
  cases e with
  | print text => exact tells_send _
  | dump address length => exact memoryLoop_tells s address length.toNat
  | listDir path => exact tells_print _
  | printFile path => exact tells_print _
  | stats => exact (tells_print _).bind fun _ => tells_print _
  | recvCpio => exact tells_more

end

section
variable {n : Nat} {load : FsState → BitVec 32 → Option UInt8} {t : Talk Session UInt8}
  {term : Term} {s : FsState} {tail : List UInt8}

theorem write_keeps {x : Session} {text rest : List UInt8}
    (h : t.Owes x (text.flatMap crlf ++ rest)) :
    Keeps (session n load) (uart1Write text) t fun _ u => u.Owes x rest := send_keeps h

/-- **A callback**, `recvfs` included. -/
theorem callback_keeps {c : Bios.Call} (h : t.Owes (Session.call n load term tail s c).1
    (Session.call n load term tail s c).2) :
    Keeps (session n load) (callback n load s c) t fun s u => u.Owes (.shell term s) tail := by
  unfold Session.call at h
  unfold callback
  by_cases hc : c.cmd.callback = .recvfs
  · rw [if_pos hc] at h ⊢
    have hrecv := fsRecvCpio_keeps (session_hosts n load term tail) h
    refine .bind (hrecv.mono fun x u hp hu => ?_)
    cases x with
    | idle s => exact .ret hp hu
    | recv buff w s => exact .more hp
    | panic msg => exact .more hp
  · rw [if_neg hc] at h ⊢
    cases hrun : c.run n with
    | running =>
      rw [hrun] at h
      exact .more h.prompt
    | fault =>
      rw [hrun] at h
      exact .more h.prompt
    | done r =>
      rw [hrun] at h
      have htells : Tells (session n load) (Prog.each (effect n load s) r.2)
          (.all (r.2.map (effectSaid n load s))) := .each (effect_tells s) r.2
      dsimp only at h ⊢
      split at h
      · rename_i hends
        refine .bind ((htells t _ tail ?_).mono fun _ u hp hu => .ret hp hu.2)
        rwa [if_pos hends]
      · rename_i hends
        refine .bind ((htells t .stuck tail ?_).mono fun _ u _ hu => absurd hu.1 hends)
        rwa [if_neg hends, List.append_nil]

theorem execCmd_keeps (h : t.Owes (Session.exec n load term s).1 (Session.exec n load term s).2) :
    Keeps (session n load) (execCmd n load term s) t fun r u =>
      u.Owes (.shell { r.1 with pos := 0 } r.2) (Shell.PROMPT.flatMap crlf) := by
  unfold Session.exec at h
  unfold execCmd
  cases hexec : Bios.execCmd term.buffer term.last with
  | running =>
    rw [hexec] at h
    exact .more h.prompt
  | fault =>
    rw [hexec] at h
    exact .more h.prompt
  | done e =>
    rw [hexec] at h
    dsimp only at h ⊢
    refine .bind (Meets.mono (Q := fun s u => u.Owes (.shell
      { buffer := e.buffer, pos := 0, last := e.last } s)
      (e.text.flatMap crlf ++ Shell.PROMPT.flatMap crlf)) ?_ fun s u _ hu => ?_)
    · cases hcall : e.call with
      | none =>
        rw [hcall] at h
        exact .ret h.prompt h
      | some c =>
        rw [hcall] at h
        exact callback_keeps h
    · exact .bind ((write_keeps hu).mono fun _ v hp hv => .ret hp hv)

/-- **A key**, once it is in the buffer. -/
theorem ackCmd_keeps (h : t.Owes (Session.ack n load term s).1 (Session.ack n load term s).2) :
    Keeps (session n load) (ackCmd n load term s) t fun r u => u.Owes (.shell r.1 r.2) [] := by
  unfold Session.ack at h
  unfold ackCmd
  cases hbyte : term.buffer[term.pos.toNat]? with
  | none =>
    rw [hbyte] at h
    exact .more h.prompt
  | some byte =>
    rw [hbyte] at h
    dsimp only at h ⊢
    by_cases henter : byte = Shell.ENTER
    · rw [if_pos henter] at h ⊢
      cases hstore : store term.buffer term.pos.toNat 0 with
      | running =>
        rw [hstore] at h
        exact .more h.prompt
      | fault =>
        rw [hstore] at h
        exact .more h.prompt
      | done buffer =>
        rw [hstore] at h
        dsimp only at h ⊢
        refine .bind ((write_keeps h).mono fun _ u _ hu => .bind (Meets.mono (Q := fun r v =>
          v.Owes (.shell { r.1 with pos := 0 } r.2) (Shell.PROMPT.flatMap crlf)) ?_
          fun r v _ hv => ?_))
        · by_cases hpos : term.pos ≠ 0
          · rw [if_pos hpos] at hu ⊢
            exact execCmd_keeps hu
          · rw [if_neg hpos] at hu ⊢
            exact .ret hu.prompt hu
        · rw [← List.append_nil (Shell.PROMPT.flatMap crlf)] at hv
          exact .bind ((write_keeps hv).mono fun _ w hp hw => .ret hp hw)
    · rw [if_neg henter] at h ⊢
      by_cases hdel : byte = Shell.DEL ∨ byte = Shell.BACKSPACE
      · rw [if_pos hdel] at h ⊢
        by_cases hpos : 0 < term.pos
        · rw [if_pos hpos] at h ⊢
          have h1 : t.Owes _ ([Shell.BACKSPACE] ++ ([BLANK] ++ ([Shell.BACKSPACE] ++ []))) := h
          refine .bind ((send_keeps h1).mono fun _ u _ hu => .bind ((send_keeps hu).mono
            fun _ v _ hv => .bind ((send_keeps hv).mono fun _ w hp hw => .ret hp hw)))
        · rw [if_neg hpos] at h ⊢
          exact .ret h.prompt h
      · rw [if_neg hdel] at h ⊢
        by_cases hctrl : byte = Shell.CTRL_C
        · rw [if_pos hctrl] at h ⊢
          refine .bind ((write_keeps h).mono fun _ u _ hu => ?_)
          rw [← List.append_nil (Shell.PROMPT.flatMap crlf)] at hu
          exact .bind ((write_keeps hu).mono fun _ v hp hv => .ret hp hv)
        · rw [if_neg hctrl] at h ⊢
          by_cases hprint : isPrintable byte = true
          · rw [if_pos hprint] at h ⊢
            have h1 : t.Owes _ ([byte] ++ []) := h
            exact .bind ((send_keeps h1).mono fun _ u hp hu => .ret hp hu)
          · rw [if_neg hprint] at h ⊢
            exact .ret h.prompt h

/-- **The loop of the shell**: it never ends. -/
theorem shellLoop_keeps (k : Nat) (h : t.Owes (.shell term s) []) :
    Keeps (session n load) (shellLoop n load k term s) t fun _ _ => False := by
  induction k generalizing t term s with
  | zero => exact .more h.prompt
  | succ k ih =>
    have hread : Keeps (session n load) (ask (.readb .com1)) t fun byte u =>
        u.Owes (Session.key n load term s byte).1 (Session.key n load term s byte).2 := by
      refine .perform h.prompt fun (byte : UInt8) u hu => ?_
      have hkey : u.Owes (Session.key n load term s byte).1 (Session.key n load term s byte).2 := by
        have hin : lineInput ⟨.readb .com1, byte⟩ = some (.com1 byte) := rfl
        exact hu ▸ h.told hin
      exact ⟨hkey.prompt, hkey⟩
    unfold shellLoop
    refine .bind (hread.mono fun byte u hp hu => ?_)
    unfold Session.key at hu
    dsimp only at hu ⊢
    cases hstore : store term.buffer term.pos.toNat byte with
    | running => exact .more hp
    | fault => exact .more hp
    | done buffer =>
      rw [hstore] at hu
      exact .bind ((ackCmd_keeps hu).mono fun r v _ hv => ih hv)

end

/-- What the BIOS prints before it takes the first byte. -/
def bootText (n : Nat) : List UInt8 :=
  textOf (printfP n (ascii "IDT: %p\n") (frameToVirt 2)) ++
    (textOf (printfP n (ascii "FS: %p\n") (frameToVirt 3)) ++ Shell.PROMPT.flatMap crlf)

/-- The conversation with the BIOS from its start. -/
def bootTalk (n : Nat) (fs : Nat → FsBlock) (mem : Nat → Mem) : Talk Session UInt8 :=
  .start (.shell .start (bootFs fs mem)) (bootText n)

/-- **The BIOS is the machine**, from `main` on. -/
theorem main_keeps (n : Nat) (load : FsState → BitVec 32 → Option UInt8) (fs : Nat → FsBlock)
    (mem : Nat → Mem) :
    Keeps (session n load) (main n load fs mem) (bootTalk n fs mem) fun _ _ => False := by
  have h : (bootTalk n fs mem).Owes _ _ := Talk.owes_start
  unfold main
  refine .bind ((print_keeps h).mono fun _ u _ hu => ?_)
  refine .bind ((print_keeps hu).mono fun _ v _ hv => ?_)
  rw [← List.append_nil (Shell.PROMPT.flatMap crlf)] at hv
  exact .bind ((write_keeps hv).mono fun _ w _ hw => shellLoop_keeps n hw)

end LsePc.System
