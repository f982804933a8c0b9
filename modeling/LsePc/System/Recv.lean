/-
  File:      LsePc/System/Recv.lean
  Subject:   `fs_recv_cpio` (sw/bios/src/fs.c) as a program over the serial lines.

  The function polls both lines, leaves by `goto free_buff` from four loops and prints as it
  goes. `Sys.step` is what it does from one byte to the next; here that is compared with the
  function as it is written.

  * `fsRecvbCpio`, `fsRecvCpio`: the functions. A loop has `n` turns at most, and a string
    that `printf` is given is shorter than `n`;
  * `recvReply`: what is printed on a byte;
  * `Hosts`: a transducer that `fs_recv_cpio` is a part of;
  * **result** (`fsRecvCpio_keeps`): the function is that part, with what it prints, however
    the bytes of the two lines come.
-/
import LsePc.Bios.PrintFile
import LsePc.Lib.Rules
import LsePc.System.Uart

namespace LsePc.System

open LsePc.Lib LsePc.Host LsePc.Bios

/-! ## 1. Output -/

abbrev Console (α : Type) := Prog LineOp LineOp.Answer α

def ask (i : LineOp) : Console i.Answer := .perform i

def send (text : List UInt8) : Console Unit := .each (fun b => ask (.writeb .com1 b)) text

def uart1Write (str : List UInt8) : Console Unit := send (str.flatMap crlf)

/-- What a call of `printf` sends. What is in its buffer before the call is not sent. -/
def printed {α : Type} (m : Out α) : Option (List UInt8) :=
  (m blankStdout).map fun r => r.2.com1

def print {α : Type} (m : Out α) : Console Unit :=
  match printed m with
  | some text => send text
  | none => .more

/-! ## 2. The functions -/

section
variable (n : Nat)

def waitingText : Out Int :=
  vprintf (fun _ => cstr []) n
    (ascii "Waiting for cpio archive on COM2 (press q to abort)\n") []

def loadedText : Out Int := vprintf (fun _ => cstr []) n (ascii "cpio successfully loaded\n") []

def doneText : Out Int := vprintf (fun _ => cstr []) n (ascii "done\n") []

def receivingText (filename : Mem) (filesize : Nat) : Out Int :=
  vprintf (fun _ => filename) n (ascii "Receiving file: %s (%d bytes)...")
    [0, BitVec.ofNat 32 filesize]

/-- `None` where it returns 1. -/
def fsRecvbCpio : Nat → Console (Option UInt8)
  | 0 => .more
  | k + 1 => do
    let quit ← (do
      if ← ask (.canReceive .com1) then
        let c ← ask (.readb .com1)
        if c = quitKey then pure true
        else
          print (waitingText n)
          pure false
      else pure false : Console Bool)
    if quit then pure none
    else if ← ask (.canReceive .com2) then
      let c ← ask (.readb .com2)
      pure (some c)
    else fsRecvbCpio k

/-- The body of `fs_recv_cpio`, which leaves for `free_buff` or with a panic. -/
abbrev Recv (α : Type) := Leaves LineOp LineOp.Answer Sys α

variable (buff : Nat)

/-- `if (fs_recvb_cpio(..)) goto free_buff;` -/
def recvByte (s : FsState) : Recv UInt8 := do
  match ← liftM (fsRecvbCpio n n) with
  | some c => pure c
  | none => throw (freeBuff buff s)

def headerLoop (s : FsState) : Recv (Nat × FsState) :=
  whileLoop (fun (cur, _) => cur < cpioHdrSize) (fun (cur, s) => do
    let c ← recvByte n buff s
    pure (cur + 1, s.poke buff cur c)) n (2, s)

def nameLoop (s : FsState) : Recv (Nat × FsState) :=
  whileLoop (fun (i, s) => i < cNamesize (s.mem buff)) (fun (i, s) => do
    let c ← recvByte n buff s
    pure (i + 1, s.poke buff (cpioHdrSize + i) c)) n (0, s)

/-- The bytes of a block. -/
def blockLoop (b filesize cur : Nat) (s : FsState) : Recv (Nat × Nat × FsState) :=
  whileLoop (fun (i, cur, _) => i < PAGE_SIZE ∧ cur < filesize) (fun (i, cur, s) => do
    let c ← recvByte n buff s
    pure (i + 1, cur + 1, s.poke (s.fs b).data i c)) n (0, cur, s)

/-- `while (cur < filesize)` -/
def chunkLoop (b filesize : Nat) (s : FsState) : Recv (Nat × Nat × FsState) :=
  whileLoop (fun (_, cur, _) => cur < filesize) (fun (b, cur, s) => do
    match allocFrame s.frames with
    | none => throw (.panic "No memory available")
    | some (f, frames) =>
      let s := { s with frames := frames }
      let s := s.setBlock b fun x => { x with data := f, size := min PAGE_SIZE (filesize - cur) }
      let (_, cur, s) ← blockLoop n buff b filesize cur s
      if cur < filesize then
        match fsFindFreeBlock s with
        | none => throw (.panic "Not enough free block")
        | some (nb, s) =>
          let s := s.setBlock b fun x => { x with next := nb }
          pure (nb, cur, s.setBlock nb fun x => { x with type := FS_TYPE_DBLK })
      else pure (b, cur, s)) n (b, 0, s)

/-- From the name on. -/
def recvEntry (s : FsState) : Recv FsState := do
  let hdr := s.mem buff
  let filename : Mem := fun i => hdr (cpioHdrSize + i)
  if strcmp filename trailer = 0 then
    liftM (print (loadedText n))
    throw (freeBuff buff s)
  else
    let filesize := (cFilesize0 hdr <<< 16) ||| cFilesize1 hdr
    liftM (print (receivingText n filename filesize))
    match fsFindFreeBlock s with
    | none => throw (.panic "Not enough free block")
    | some (b, s) =>
      let s := s.setBlock b fun x =>
        { x with type := FS_TYPE_INODE, flags := FS_RW, dnext := s.next 0 }
      let s := s.setBlock 0 fun x => { x with next := b }
      let s := s.setBlock b fun x =>
        { x with name := strncpy x.name filename (min FS_NAME_SIZE (cNamesize hdr)) }
      let (b, _, s) ← chunkLoop n buff b filesize s
      let s := s.setBlock b fun x => { x with next := 0 }
      liftM (print (doneText n))
      pure s

/-- A turn of `for (;;)`. -/
def recvTurn (s : FsState) : Recv FsState := do
  let c ← recvByte n buff s
  let s := s.poke buff 0 c
  if s.mem buff 0 ≠ CPIO_MAGIC0 then pure s
  else
    let c ← recvByte n buff s
    let s := s.poke buff 1 c
    if s.mem buff 1 ≠ CPIO_MAGIC1 then pure s
    else
      let (cur, s) ← headerLoop n buff s
      if PAGE_SIZE < cNamesize (s.mem buff) + cur then throw (.panic "Filename too long")
      else
        let (_, s) ← nameLoop n buff s
        recvEntry n buff s

/-- `fs_recv_cpio`, and where the BIOS is after it: in the shell, or in a panic. -/
def fsRecvCpio (s : FsState) : Console Sys :=
  match allocFrame s.frames with
  | none => pure (.panic "No memory available")
  | some (buff, frames) => do
    match ← (whileLoop (fun _ => true) (recvTurn n buff) n { s with frames := frames }).run with
    | .error x => pure x
    | .ok _ => .more

end

/-! ## 3. What is printed on a byte -/

section
variable (n buff : Nat)

def textOf {α : Type} (m : Out α) : List UInt8 := (printed m).getD []

/-- At the test of the loop over the data. -/
def chunkReply (filesize cur : Nat) : List UInt8 :=
  if cur < filesize then [] else textOf (doneText n)

def fileReply (s : FsState) : List UInt8 :=
  let hdr := s.mem buff
  let filename : Mem := fun i => hdr (cpioHdrSize + i)
  if strcmp filename trailer = 0 then textOf (loadedText n)
  else
    let filesize := (cFilesize0 hdr <<< 16) ||| cFilesize1 hdr
    textOf (receivingText n filename filesize) ++
      match fsFindFreeBlock s with
      | none => []
      | some _ => chunkReply n filesize 0

def nameReply (i : Nat) (s : FsState) : List UInt8 :=
  if i < cNamesize (s.mem buff) then [] else fileReply n buff s

def headerReply (cur : Nat) (s : FsState) : List UInt8 :=
  if cur < cpioHdrSize then []
  else if PAGE_SIZE < cNamesize (s.mem buff) + cur then []
  else nameReply n buff 0 s

def recvbReply (s : FsState) (c : UInt8) : Wait → List UInt8
  | .magic0 => []
  | .magic1 =>
    let s := s.poke buff 1 c
    if s.mem buff 1 ≠ CPIO_MAGIC1 then [] else headerReply n buff 2 s
  | .header cur => headerReply n buff (cur + 1) (s.poke buff cur c)
  | .name i => nameReply n buff (i + 1) (s.poke buff (cpioHdrSize + i) c)
  | .data _ filesize cur _ => chunkReply n filesize (cur + 1)

end

def recvReply (n : Nat) : Sys → Input → List UInt8
  | .recv buff w s, .com2 c => recvbReply n buff s c w
  | .recv _ _ _, .com1 c => if c = quitKey then [] else textOf (waitingText n)
  | _, _ => []

/-! ## 4. The function is the machine -/

/-- The bytes the BIOS reads and those it sends on COM1. -/
def lineInput : Event LineOp LineOp.Answer → Option Input
  | ⟨.readb .com1, c⟩ => some (.com1 c)
  | ⟨.readb .com2, c⟩ => some (.com2 c)
  | _ => none

def lineOutput : Event LineOp LineOp.Answer → Option UInt8
  | ⟨.writeb .com1 c, _⟩ => some c
  | _ => none

section
variable {σ : Type} {M : Transducer σ Input UInt8} {host : Sys → σ} {tail : List UInt8} {n : Nat}

/-- What follows `fs_recv_cpio`, once it is in the shell again. -/
def afterRecv (tail : List UInt8) : Sys → List UInt8
  | .idle _ => tail
  | _ => []

/-- **A machine that `fs_recv_cpio` is a part of**: while it waits for a byte the machine is
    `Sys`, and prints what it prints, and then the `tail`. -/
structure Hosts (M : Transducer σ Input UInt8) (host : Sys → σ) (tail : List UInt8) (n : Nat) :
    Prop where
  step : ∀ buff w s i, i ≠ .recvfs →
    M.step (host (.recv buff w s)) i = host ((Sys.recv buff w s).step i)
  reply : ∀ buff w s i, i ≠ .recvfs → M.reply (host (.recv buff w s)) i =
    recvReply n (.recv buff w s) i ++ afterRecv tail ((Sys.recv buff w s).step i)

variable (host tail) in
/-- The machine is at `x`, and `text` is to be printed yet. -/
abbrev Owes (t : Talk σ UInt8) (x : Sys) (text : List UInt8) : Prop :=
  t.Owes (host x) (text ++ afterRecv tail x)

variable {t : Talk σ UInt8} {x : Sys} {y : σ} {text rest : List UInt8}

variable (M) in
/-- Pre- and postconditions of a program of the BIOS that talks to `M`. -/
abbrev Keeps {α : Type} (p : Console α) (t : Talk σ UInt8) (Q : α → Talk σ UInt8 → Prop) : Prop :=
  Meets (Talks M lineInput lineOutput) Talk.Prompt p t Q

theorem send_keeps (h : t.Owes y (text ++ rest)) :
    Keeps M (send text) t fun _ u => u.Owes y rest := by
  refine Meets.each (P := fun l (u : Talk σ UInt8) => u.Owes y (l ++ rest))
    (fun _ _ h => h.prompt) ?_ h
  intro b l u hu
  refine .perform hu.prompt fun o v hv => ?_
  have hv : v.Owes y (l ++ rest) := hv ▸ hu.say rfl rfl
  exact ⟨hv.prompt, hv⟩

theorem print_keeps {α : Type} {m : Out α} (h : t.Owes y (textOf m ++ rest)) :
    Keeps M (print m) t fun _ u => u.Owes y rest := by
  unfold print
  unfold textOf at h
  split
  · rename_i text htext
    rw [htext] at h
    exact send_keeps h
  · exact .more h.prompt

theorem print_owes {α : Type} {m : Out α} (h : Owes host tail t x (textOf m ++ rest)) :
    Keeps M (print m) t fun _ u => Owes host tail u x rest := by
  rw [Owes, List.append_assoc] at h
  exact print_keeps h

/-- A poll of a line is no part of the conversation. -/
theorem poll_keeps {c : SerialPort} {Q : Bool → Talk σ UInt8 → Prop} (ht : t.Prompt)
    (hQ : ∀ b, Q b t) : Keeps M (ask (.canReceive c)) t Q := by
  refine .perform ht fun b u hu => ?_
  obtain rfl : u = t := hu.trans (Talk.hear_other rfl rfl)
  exact ⟨ht, hQ b⟩

variable {buff : Nat} {w : Wait} {s : FsState}

/-- A byte is read while `fs_recv_cpio` waits. -/
theorem owes_hear (hM : Hosts M host tail n) (h : Owes host tail t (.recv buff w s) [])
    {e : Event LineOp LineOp.Answer} {i : Input} (he : lineInput e = some i) (hi : i ≠ .recvfs) :
    Owes host tail (t.hear M lineInput lineOutput e) ((Sys.recv buff w s).step i)
      (recvReply n (.recv buff w s) i) := by
  have hu : (t.hear M lineInput lineOutput e).Owes _ _ := h.told he
  rwa [hM.step buff w s i hi, hM.reply buff w s i hi] at hu

theorem readb_keeps (hM : Hosts M host tail n) (h : Owes host tail t (.recv buff w s) [])
    {c : SerialPort} {i : UInt8 → Input}
    (hin : ∀ b, lineInput ⟨.readb c, b⟩ = some (i b) ∧ i b ≠ .recvfs) :
    Keeps M (ask (.readb c)) t fun b u => Owes host tail u ((Sys.recv buff w s).step (i b))
      (recvReply n (.recv buff w s) (i b)) := by
  refine .perform h.prompt fun b u hu => ?_
  obtain rfl : u = t.hear M lineInput lineOutput ⟨.readb c, b⟩ := hu
  have hu := owes_hear hM h (hin b).1 (hin b).2
  exact ⟨hu.prompt, hu⟩

/-- **A wait for a byte** ends with a `q`, or with a byte on COM2. -/
theorem fsRecvbCpio_keeps (hM : Hosts M host tail n) (h : Owes host tail t (.recv buff w s) [])
    (k : Nat) : Keeps M (fsRecvbCpio n k) t fun r u => match r with
      | none => Owes host tail u (freeBuff buff s) []
      | some c => Owes host tail u (recvb buff s c w) (recvbReply n buff s c w) := by
  induction k generalizing t with
  | zero => exact .more h.prompt
  | succ k ih =>
    unfold fsRecvbCpio
    refine .bind (Meets.mono (Q := fun quit u => if quit then Owes host tail u (freeBuff buff s) []
      else Owes host tail u (.recv buff w s) []) ?_ ?_)
    · -- the key
      refine .bind (poll_keeps h.prompt fun b => ?_)
      cases b with
      | false => exact .ret h.prompt h
      | true =>
        have hbyte := readb_keeps (c := .com1) (i := .com1) hM h fun b => ⟨rfl, by simp⟩
        refine .bind (hbyte.mono fun c u _ hu => ?_)
        have hstep : (Sys.recv buff w s).step (.com1 c) =
            if c = quitKey then freeBuff buff s else .recv buff w s := rfl
        have hreply : recvReply n (.recv buff w s) (.com1 c) =
            if c = quitKey then [] else textOf (waitingText n) := rfl
        rw [hstep, hreply] at hu
        by_cases hc : c = quitKey
        · rw [if_pos hc, if_pos hc] at hu
          rw [if_pos hc]
          exact .ret hu.prompt hu
        · rw [if_neg hc, if_neg hc, ← List.append_nil (textOf _)] at hu
          rw [if_neg hc]
          exact .bind ((print_owes hu).mono fun _ _ _ hv => .ret hv.prompt hv)
    · -- the byte
      intro quit u _ hu
      cases quit with
      | true => exact .ret (Talk.Owes.prompt hu) hu
      | false =>
        have hu : Owes host tail u (.recv buff w s) [] := hu
        refine .bind (poll_keeps hu.prompt fun b => ?_)
        cases b with
        | false => exact ih hu
        | true =>
          have hbyte := readb_keeps (c := .com2) (i := .com2) hM hu fun b => ⟨rfl, by simp⟩
          refine .bind (hbyte.mono fun c v _ hv => ?_)
          exact .ret hv.prompt hv

/-! ### The loops -/

variable (M host tail) in
/-- The same of a part of `fs_recv_cpio`: where it leaves, the machine is there too. -/
abbrev Stays {α : Type} (p : Recv α) (t : Talk σ UInt8) (Q : α → Talk σ UInt8 → Prop) : Prop :=
  Keeps M p.run t (Either (fun x u => Owes host tail u x []) Q)

theorem recvByte_stays (hM : Hosts M host tail n) (h : Owes host tail t (.recv buff w s) []) :
    Stays M host tail (recvByte n buff s) t fun c u =>
      Owes host tail u (recvb buff s c w) (recvbReply n buff s c w) := by
  unfold recvByte
  refine .andThen (Meets.lift (fsRecvbCpio_keeps hM h n)) fun r u hu hr => ?_
  cases r with
  | some c => exact .pure hu hr
  | none => exact .throw hu hr

theorem headerLoop_stays (hM : Hosts M host tail n)
    (h : Owes host tail t (recvHeader buff 2 s) (headerReply n buff 2 s)) :
    Stays M host tail (headerLoop n buff s) t fun r u => cpioHdrSize ≤ r.1 ∧
      Owes host tail u (recvHeader buff r.1 r.2) (headerReply n buff r.1 r.2) := by
  refine Meets.while (fun r u => Owes host tail u (recvHeader buff r.1 r.2)
    (headerReply n buff r.1 r.2)) (fun _ _ h => h.prompt) ?_ ?_ h
  · rintro ⟨cur, s⟩ u hu htest
    have hcur : cur < cpioHdrSize := of_decide_eq_true htest
    have hwait : recvHeader buff cur s = .recv buff (.header cur) s := if_pos hcur
    have hnone : headerReply n buff cur s = [] := if_pos hcur
    dsimp only at hu
    rw [hwait, hnone] at hu
    exact .andThen (recvByte_stays hM hu) fun c v hv hc => .pure hv hc
  · intro r u hu htest
    exact ⟨Nat.le_of_not_lt (of_decide_eq_false htest), hu⟩

theorem nameLoop_stays (hM : Hosts M host tail n)
    (h : Owes host tail t (recvName buff 0 s) (nameReply n buff 0 s)) :
    Stays M host tail (nameLoop n buff s) t fun r u =>
      Owes host tail u (recvFile buff r.2) (fileReply n buff r.2) := by
  refine Meets.while (fun r u => Owes host tail u (recvName buff r.1 r.2)
    (nameReply n buff r.1 r.2)) (fun _ _ h => h.prompt) ?_ ?_ h
  · rintro ⟨i, s⟩ u hu htest
    have hi : i < cNamesize (s.mem buff) := of_decide_eq_true htest
    have hwait : recvName buff i s = .recv buff (.name i) s := if_pos hi
    have hnone : nameReply n buff i s = [] := if_pos hi
    dsimp only at hu
    rw [hwait, hnone] at hu
    exact .andThen (recvByte_stays hM hu) fun c v hv hc => .pure hv hc
  · intro r u hu htest
    have hi : ¬ r.1 < cNamesize (r.2.mem buff) := of_decide_eq_false htest
    have hfile : recvName buff r.1 r.2 = recvFile buff r.2 := if_neg hi
    have hreply : nameReply n buff r.1 r.2 = fileReply n buff r.2 := if_neg hi
    rwa [hfile, hreply] at hu

theorem blockLoop_stays (hM : Hosts M host tail n) {b filesize cur : Nat}
    (h : Owes host tail t (recvData buff b filesize cur 0 s) (chunkReply n filesize cur)) :
    Stays M host tail (blockLoop n buff b filesize cur s) t fun r u =>
      ¬ (r.1 < PAGE_SIZE ∧ r.2.1 < filesize) ∧
        Owes host tail u (recvData buff b filesize r.2.1 r.1 r.2.2)
          (chunkReply n filesize r.2.1) := by
  refine Meets.while (fun r u => Owes host tail u (recvData buff b filesize r.2.1 r.1 r.2.2)
    (chunkReply n filesize r.2.1)) (fun _ _ h => h.prompt) ?_ ?_ h
  · rintro ⟨i, cur, s⟩ u hu htest
    have hi : i < PAGE_SIZE ∧ cur < filesize := of_decide_eq_true htest
    have hwait : recvData buff b filesize cur i s = .recv buff (.data b filesize cur i) s :=
      if_pos hi
    have hnone : chunkReply n filesize cur = [] := if_pos hi.2
    dsimp only at hu
    rw [hwait, hnone] at hu
    exact .andThen (recvByte_stays hM hu) fun c v hv hc => .pure hv hc
  · intro r u hu htest
    exact ⟨of_decide_eq_false htest, hu⟩

theorem chunkLoop_stays (hM : Hosts M host tail n) {b filesize : Nat}
    (h : Owes host tail t (recvChunk buff b filesize 0 s) (chunkReply n filesize 0)) :
    Stays M host tail (chunkLoop n buff b filesize s) t fun r u =>
      Owes host tail u (.recv buff .magic0 (r.2.2.setBlock r.1 fun x => { x with next := 0 }))
        (textOf (doneText n)) := by
  refine Meets.while (fun r u => Owes host tail u (recvChunk buff r.1 filesize r.2.1 r.2.2)
    (chunkReply n filesize r.2.1)) (fun _ _ h => h.prompt) ?_ ?_ h
  · rintro ⟨b, cur, s⟩ u hu htest
    have hcur : cur < filesize := of_decide_eq_true htest
    have hnone : chunkReply n filesize cur = [] := if_pos hcur
    have hchunk : recvChunk buff b filesize cur s = _ := if_pos hcur
    dsimp only at hu ⊢
    rw [hnone, hchunk] at hu
    cases halloc : allocFrame s.frames with
    | none =>
      rw [halloc] at hu
      exact .throw hu.prompt hu
    | some r =>
      obtain ⟨f, frames⟩ := r
      rw [halloc] at hu
      dsimp only at hu ⊢
      have hpage : 0 < PAGE_SIZE := by decide
      rw [← hnone, ← show recvData buff b filesize cur 0 _ = _ from if_pos ⟨hpage, hcur⟩] at hu
      refine .andThen (blockLoop_stays hM hu) ?_
      rintro ⟨i, cur', s'⟩ v - ⟨hstop, hv⟩
      dsimp only at hstop hv ⊢
      rw [recvData, if_neg hstop] at hv
      by_cases hmore : cur' < filesize
      · have hnone' : chunkReply n filesize cur' = [] := if_pos hmore
        rw [if_pos hmore] at hv
        rw [if_pos hmore]
        cases hfree : fsFindFreeBlock s' with
        | none =>
          rw [hfree, hnone'] at hv
          exact .throw hv.prompt hv
        | some r =>
          rw [hfree] at hv
          exact .pure hv.prompt hv
      · rw [if_neg hmore] at hv
        rw [if_neg hmore]
        exact .pure hv.prompt hv
  · intro r u hu htest
    have hcur : ¬ r.2.1 < filesize := of_decide_eq_false htest
    have hend : recvChunk buff r.1 filesize r.2.1 r.2.2 =
        .recv buff .magic0 (r.2.2.setBlock r.1 fun x => { x with next := 0 }) := if_neg hcur
    have hdone : chunkReply n filesize r.2.1 = textOf (doneText n) := if_neg hcur
    rwa [hend, hdone] at hu

/-! ### The function -/

theorem recvEntry_stays (hM : Hosts M host tail n)
    (h : Owes host tail t (recvFile buff s) (fileReply n buff s)) :
    Stays M host tail (recvEntry n buff s) t fun s u =>
      Owes host tail u (.recv buff .magic0 s) [] := by
  unfold recvFile fileReply at h
  unfold recvEntry
  dsimp only at h ⊢
  split
  · rename_i htrailer
    rw [if_pos htrailer, if_pos htrailer, ← List.append_nil (textOf _)] at h
    exact .andThen (.lift (print_owes h)) fun _ u hu hr => .throw hu hr
  · rename_i htrailer
    rw [if_neg htrailer, if_neg htrailer] at h
    refine .andThen (.lift (print_owes h)) fun _ u hu hr => ?_
    cases hfree : fsFindFreeBlock s with
    | none =>
      rw [hfree] at hr
      exact .throw hu hr
    | some r =>
      rw [hfree] at hr
      refine .andThen (chunkLoop_stays hM hr) fun r v _ hv => ?_
      rw [← List.append_nil (textOf _)] at hv
      exact .andThen (.lift (print_owes hv)) fun _ w hw hr => .pure hw hr

theorem recvTurn_stays (hM : Hosts M host tail n) (h : Owes host tail t (.recv buff .magic0 s) []) :
    Stays M host tail (recvTurn n buff s) t fun s u =>
      Owes host tail u (.recv buff .magic0 s) [] := by
  unfold recvTurn
  refine .andThen (recvByte_stays hM h) fun c u hu hc => ?_
  unfold recvb recvbReply at hc
  dsimp only at hc ⊢
  split
  · rename_i hmagic
    rw [if_pos hmagic] at hc
    exact .pure hu hc
  · rename_i hmagic
    rw [if_neg hmagic] at hc
    refine .andThen (recvByte_stays hM hc) fun c' v hv hc' => ?_
    unfold recvb recvbReply at hc'
    dsimp only at hc' ⊢
    split
    · rename_i hmagic'
      rw [if_pos hmagic', if_pos hmagic'] at hc'
      exact .pure hv hc'
    · rename_i hmagic'
      rw [if_neg hmagic', if_neg hmagic'] at hc'
      refine .andThen (headerLoop_stays hM hc') ?_
      rintro ⟨cur, s'⟩ w hw ⟨hcur, hr⟩
      have hend : ¬ cur < cpioHdrSize := Nat.not_lt_of_le hcur
      unfold recvHeader headerReply at hr
      dsimp only at hr ⊢
      rw [if_neg hend, if_neg hend] at hr
      split
      · rename_i hlong
        rw [if_pos hlong, if_pos hlong] at hr
        exact .throw hw hr
      · rename_i hlong
        rw [if_neg hlong, if_neg hlong] at hr
        exact .andThen (nameLoop_stays hM hr) fun r v _ hv => recvEntry_stays hM hv

/-- **`fs_recv_cpio` is the machine**: when it returns, the machine is where it is, and all that
    is to be printed has been. -/
theorem fsRecvCpio_keeps (hM : Hosts M host tail n) {s : FsState}
    (h : Owes host tail t (Bios.fsRecvCpio s) []) :
    Keeps M (fsRecvCpio n s) t fun x u => Owes host tail u x [] := by
  unfold Bios.fsRecvCpio at h
  unfold fsRecvCpio
  cases halloc : allocFrame s.frames with
  | none =>
    rw [halloc] at h
    exact .ret h.prompt h
  | some r =>
    obtain ⟨buff, frames⟩ := r
    rw [halloc] at h
    have hloop : Stays M host tail (whileLoop (fun _ => true) (recvTurn n buff) n
        { s with frames := frames }) t fun _ _ => False :=
      Meets.while (fun s u => Owes host tail u (.recv buff .magic0 s) []) (fun _ _ h => h.prompt)
        (fun _ _ hu _ => recvTurn_stays hM hu) (fun _ _ _ hf => absurd hf (by decide)) h
    refine .bind (hloop.mono fun r u hu hr => ?_)
    cases r with
    | error x => exact .ret hu hr
    | ok s' => exact absurd hr id

end

end LsePc.System
