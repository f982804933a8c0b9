/-
  File:      LsePc/Bios/Shell.lean
  Subject:   The shell's line editor: `shell_run` and `ack_cmd` (sw/bios/src/shell.c) against an
             editor on lists.

  * `Shell`: the buffer of 1024 bytes, the position, the buffers `exec_cmd` was called with and
    the callbacks it has called. A byte written outside the buffer is a `fault`;
  * `Shell.type`: a turn of `shell_run`, on the byte that its `uart1_readb` returns;
  * `Editor`: the reference, one byte after the other;
  * `Follows`, `type_follows`: the bytes before the position are the line of the editor.

  A callback does not touch what is in `Shell`, and here it is a call in a list. What it does, that
  `recvfs` takes bytes of COM1 and that a callback may not return, is in System/Console.lean; the
  runs of the shell with its callbacks are in System/Typing.lean.
-/
import LsePc.Bios.Command

namespace LsePc.Bios

open LsePc.Lib

/-! ## 1. The shell -/

namespace Shell

def BUF_SIZE : Nat := 1024

def PROMPT : List UInt8 := ascii "$ "

def BACKSPACE : UInt8 := 0x08
def DEL : UInt8 := 127
def ENTER : UInt8 := 0x0D
def CTRL_C : UInt8 := 3

end Shell

/-- `char` is signed. -/
def isPrintable (c : UInt8) : Bool := 0x20 ≤ c.toInt8 && c.toInt8 ≤ 0x7E

/-- The buffer and the position of `shell_run`, the static pointer of `strtok_c`, the buffers
    passed to `exec_cmd`, the calls it made, and what the shell has written on COM1. -/
structure Shell where
  buffer : List UInt8
  pos : UInt16
  last : Option Nat
  passed : List (List UInt8)
  calls : List Call
  com1 : List UInt8

/-- `uart1_write`. -/
def Shell.write (s : Shell) (text : List UInt8) : Shell :=
  { s with com1 := s.com1 ++ text.flatMap crlf }

/-- `uart1_writeb`. -/
def Shell.writeb (s : Shell) (c : UInt8) : Shell := { s with com1 := s.com1 ++ [c] }

/-- `exec_cmd(buffer)`. -/
def Shell.exec (s : Shell) : Outcome Shell := do
  let e ← execCmd s.buffer s.last
  let s := { s with passed := s.passed ++ [s.buffer], calls := s.calls ++ e.call.toList,
                    buffer := e.buffer, last := e.last }
  .done (s.write e.text)

/-- The line ends: it is executed, unless it is empty. -/
def Shell.enter (s : Shell) : Outcome Shell :=
  let s := s.write (ascii "\n")
  if s.pos ≠ 0 then s.exec else .done s

def ackCmd (s : Shell) : Outcome Shell :=
  match s.buffer[s.pos.toNat]? with
  | none => .fault
  | some byte =>
    if byte = Shell.ENTER then do
      let buffer ← store s.buffer s.pos.toNat 0
      let s ← Shell.enter { s with buffer := buffer }
      .done { s.write Shell.PROMPT with pos := 0 }
    else if byte = Shell.DEL ∨ byte = Shell.BACKSPACE then
      if 0 < s.pos then
        let s := ((s.writeb Shell.BACKSPACE).writeb BLANK).writeb Shell.BACKSPACE
        .done { s with pos := s.pos - 1 }
      else .done s
    else if byte = Shell.CTRL_C then
      let s : Shell := { s with pos := 0 }
      .done ((s.write (ascii "\n")).write Shell.PROMPT)
    else if isPrintable byte then .done { s.writeb byte with pos := s.pos + 1 }
    else .done s

/-- A turn of `shell_run`, on the byte read. `ack_cmd` always returns 0: there is no end to the
    loop. -/
def Shell.type (s : Shell) (byte : UInt8) : Outcome Shell := do
  let buffer ← store s.buffer s.pos.toNat byte
  ackCmd { s with buffer := buffer }

/-! ## 2. The reference -/

/-- The line being edited, and the lines submitted. -/
structure Editor where
  line : List UInt8
  submitted : List (List UInt8)
  deriving DecidableEq, Repr

def Editor.type (e : Editor) (byte : UInt8) : Editor :=
  if 0x20 ≤ byte ∧ byte ≤ 0x7E then { e with line := e.line ++ [byte] }
  else if byte = 0x7F ∨ byte = 0x08 then { e with line := e.line.dropLast }
  else if byte = 0x03 then { e with line := [] }
  else if byte = 0x0D then
    if e.line = [] then e else { line := [], submitted := e.submitted ++ [e.line] }
  else e

/-- The editor after the bytes typed. -/
def edit (typed : List UInt8) : Editor := typed.foldl Editor.type { line := [], submitted := [] }

/-! ## 3. The shell follows the editor -/

/-- **The invariant**: what is before the position is the line. -/
structure Follows (s : Shell) (e : Editor) : Prop where
  size : s.buffer.length = Shell.BUF_SIZE
  pos : s.pos.toNat = e.line.length
  line : e.line <+: s.buffer
  nonzero : 0 ∉ e.line
  terminated : ∀ buffer ∈ s.passed, 0 ∈ buffer
  passed : s.passed.map contents = e.submitted

theorem isPrintable_bytes : ∀ k < 256, isPrintable (UInt8.ofNat k) =
    decide (0x20 ≤ UInt8.ofNat k ∧ UInt8.ofNat k ≤ 0x7E) := by
  decide +kernel

/-- The sign makes no difference. -/
theorem isPrintable_iff (c : UInt8) : isPrintable c = true ↔ 0x20 ≤ c ∧ c ≤ 0x7E := by
  have h := isPrintable_bytes c.toNat c.toNat_lt
  rw [UInt8.ofNat_toNat] at h
  rw [h, decide_eq_true_iff]

section
variable {s : Shell} {e e' : Editor} {byte : UInt8} {rest : List UInt8}

/-- Behind 1024 characters the next byte is outside the buffer. -/
theorem type_overrun (h : Follows s e) (hfull : Shell.BUF_SIZE ≤ e.line.length) (byte : UInt8) :
    s.type byte = .fault := by
  unfold Shell.type store
  rw [h.size, h.pos, if_neg (Nat.not_lt_of_le hfull)]
  rfl

/-- The byte is behind the line in the buffer before it is looked at. -/
theorem type_eq (h : Follows s e) (hroom : e.line.length < Shell.BUF_SIZE) (byte : UInt8) :
    ∃ rest, (e.line ++ byte :: rest).length = Shell.BUF_SIZE ∧
      s.type byte = ackCmd { s with buffer := e.line ++ byte :: rest } := by
  obtain ⟨tail, htail⟩ := h.line
  have hlen := h.size
  rw [← htail, List.length_append] at hlen
  obtain ⟨c, rest, rfl⟩ := List.exists_cons_of_length_pos (l := tail) (by omega)
  refine ⟨rest, by rw [List.length_append]; exact hlen, ?_⟩
  unfold Shell.type
  rw [← htail, h.pos, Outcome.bind_done (store_length byte)]

theorem ackCmd_byte (h : Follows s e) :
    (e.line ++ byte :: rest)[s.pos.toNat]? = some byte := by
  rw [h.pos]
  exact get_length

/-- A state with the same log. -/
theorem Follows.edit (h : Follows s e) {s' : Shell} (hsize : s'.buffer.length = Shell.BUF_SIZE)
    (hpos : s'.pos.toNat = e'.line.length) (hline : e'.line <+: s'.buffer) (h0 : 0 ∉ e'.line)
    (hpassed : s'.passed = s.passed) (hsub : e'.submitted = e.submitted) : Follows s' e' := by
  refine ⟨hsize, hpos, hline, h0, ?_, ?_⟩
  · exact hpassed ▸ h.terminated
  · rw [hpassed, hsub]
    exact h.passed

theorem pos_eq_zero (h : Follows s e) : s.pos = 0 ↔ e.line = [] := by
  rw [← List.length_eq_zero_iff, ← h.pos]
  exact UInt16.toNat_inj.symm

theorem enter_empty (h : s.pos = 0) : s.enter = .done (s.write (ascii "\n")) :=
  if_neg (not_not_intro h)

theorem enter_line (h : s.pos ≠ 0) : s.enter = (s.write (ascii "\n")).exec := if_pos h

/-- A line that is executed. -/
theorem exec_follows (h : Follows s e) (hsize : (e.line ++ 0 :: rest).length = Shell.BUF_SIZE)
    (com1 : List UInt8) :
    ∃ s', Shell.exec { s with buffer := e.line ++ 0 :: rest, com1 := com1 } = .done s' ∧
      s'.buffer.length = Shell.BUF_SIZE ∧ s'.passed = s.passed ++ [e.line ++ 0 :: rest] := by
  obtain ⟨r, hr, hlen, -⟩ := @execCmd_eq _ rest s.last h.nonzero
  exact ⟨_, Outcome.bind_done hr _, hlen.trans hsize, rfl⟩

/-- Carriage return. -/
theorem ackCmd_enter (h : Follows s e) (hsize : (e.line ++ Shell.ENTER :: rest).length =
    Shell.BUF_SIZE) : ∃ s', ackCmd { s with buffer := e.line ++ Shell.ENTER :: rest } = .done s' ∧
      Follows s' (e.type Shell.ENTER) := by
  have hedit : e.type Shell.ENTER =
      if e.line = [] then e else { line := [], submitted := e.submitted ++ [e.line] } := rfl
  have hstore : store (e.line ++ Shell.ENTER :: rest) s.pos.toNat 0 =
      .done (e.line ++ 0 :: rest) := by
    rw [h.pos]
    exact store_length 0
  have hsize : (e.line ++ 0 :: rest).length = Shell.BUF_SIZE := by
    rw [List.length_append] at hsize ⊢
    exact hsize
  unfold ackCmd
  rw [ackCmd_byte h]
  dsimp only
  rw [if_pos rfl, Outcome.bind_done hstore, hedit]
  by_cases hline : e.line = []
  · rw [if_pos hline]
    have henter := enter_empty (s := { s with buffer := e.line ++ 0 :: rest })
      ((pos_eq_zero h).mpr hline)
    refine ⟨_, Outcome.bind_done henter _,
      h.edit hsize ?_ (hline ▸ List.nil_prefix) h.nonzero rfl rfl⟩
    rw [hline]
    rfl
  · obtain ⟨s', hexec, hlen, hpassed⟩ := exec_follows h hsize (s.com1 ++ (ascii "\n").flatMap crlf)
    have henter := (enter_line (s := { s with buffer := e.line ++ 0 :: rest })
      (mt (pos_eq_zero h).mp hline)).trans hexec
    rw [if_neg hline]
    refine ⟨_, Outcome.bind_done henter _, hlen, rfl, List.nil_prefix, nofun, ?_, ?_⟩
    · intro buffer hbuffer
      rcases List.mem_append.mp (hpassed ▸ hbuffer) with hb | hb
      · exact h.terminated buffer hb
      · rw [List.mem_singleton.mp hb]
        exact List.mem_append_right _ List.mem_cons_self
    · have hmap : s'.passed.map contents = e.submitted ++ [e.line] := by
        rw [hpassed, List.map_append, h.passed, List.map_singleton, contents_append h.nonzero]
      exact hmap

/-- DEL and backspace. -/
theorem ackCmd_delete (h : Follows s e) (hb : byte = Shell.DEL ∨ byte = Shell.BACKSPACE)
    (hsize : (e.line ++ byte :: rest).length = Shell.BUF_SIZE) :
    ∃ s', ackCmd { s with buffer := e.line ++ byte :: rest } = .done s' ∧
      Follows s' (e.type byte) := by
  have hedit : e.type byte = { e with line := e.line.dropLast } := by
    rcases hb with rfl | rfl
    · rfl
    · rfl
  have henter : byte ≠ Shell.ENTER := by
    rcases hb with rfl | rfl
    · decide
    · decide
  have hline : e.line.dropLast <+: e.line ++ byte :: rest :=
    (List.dropLast_prefix e.line).trans (List.prefix_append _ _)
  have h0 : 0 ∉ e.line.dropLast := fun hm => h.nonzero (List.mem_of_mem_dropLast hm)
  unfold ackCmd
  rw [ackCmd_byte h]
  dsimp only
  rw [if_neg henter, if_pos hb, hedit]
  by_cases hpos : s.pos = 0
  · have hnot : ¬ 0 < s.pos := by
      rw [hpos]
      decide
    rw [if_neg hnot]
    refine ⟨_, rfl, h.edit hsize ?_ hline h0 rfl rfl⟩
    rw [(pos_eq_zero h).mp hpos]
    exact congrArg UInt16.toNat hpos
  · have hlt : (0 : UInt16).toNat < s.pos.toNat :=
      Nat.pos_of_ne_zero fun h0 => hpos (UInt16.toNat_inj.mp h0)
    have hle : (1 : UInt16).toNat ≤ s.pos.toNat := hlt
    rw [if_pos (UInt16.lt_iff_toNat_lt.mpr hlt)]
    refine ⟨_, rfl, h.edit hsize ?_ hline h0 rfl rfl⟩
    rw [List.length_dropLast, ← h.pos]
    exact UInt16.toNat_sub_of_le _ _ (UInt16.le_iff_toNat_le.mpr hle)

/-- Control-C. -/
theorem ackCmd_ctrlC (h : Follows s e) (hsize : (e.line ++ Shell.CTRL_C :: rest).length =
    Shell.BUF_SIZE) : ∃ s', ackCmd { s with buffer := e.line ++ Shell.CTRL_C :: rest } = .done s' ∧
      Follows s' (e.type Shell.CTRL_C) := by
  have hedit : e.type Shell.CTRL_C = { e with line := [] } := rfl
  unfold ackCmd
  rw [ackCmd_byte h]
  refine ⟨_, rfl, hedit ▸ h.edit hsize rfl List.nil_prefix nofun rfl rfl⟩

/-- Any other byte. -/
theorem ackCmd_other (h : Follows s e) (hroom : e.line.length < Shell.BUF_SIZE)
    (hb : byte ≠ Shell.ENTER) (hd : ¬ (byte = Shell.DEL ∨ byte = Shell.BACKSPACE))
    (hc : byte ≠ Shell.CTRL_C) (hsize : (e.line ++ byte :: rest).length = Shell.BUF_SIZE) :
    ∃ s', ackCmd { s with buffer := e.line ++ byte :: rest } = .done s' ∧
      Follows s' (e.type byte) := by
  unfold ackCmd
  rw [ackCmd_byte h]
  dsimp only
  rw [if_neg hb, if_neg hd, if_neg hc]
  unfold Editor.type
  by_cases hp : isPrintable byte = true
  · have hrange := (isPrintable_iff byte).mp hp
    rw [if_pos hp, if_pos hrange]
    refine ⟨_, rfl, h.edit hsize ?_ ⟨rest, List.append_assoc _ _ _⟩ ?_ rfl rfl⟩
    · have hpos := h.pos
      rw [List.length_append, List.length_singleton, ← hpos]
      dsimp only [Shell.writeb]
      rw [UInt16.toNat_add]
      unfold Shell.BUF_SIZE at hroom
      exact Nat.mod_eq_of_lt (show s.pos.toNat + 1 < 65536 by omega)
    · intro hm
      rcases List.mem_append.mp hm with hm | hm
      · exact h.nonzero hm
      · rw [← List.mem_singleton.mp hm] at hrange
        exact absurd hrange (by decide)
  · have hd' : ¬ (byte = 0x7F ∨ byte = 0x08) := hd
    have hc' : byte ≠ 0x03 := hc
    have hb' : byte ≠ 0x0D := hb
    rw [if_neg hp, if_neg (mt (isPrintable_iff byte).mpr hp), if_neg hd', if_neg hc', if_neg hb']
    exact ⟨_, rfl, h.edit hsize h.pos (List.prefix_append _ _) h.nonzero rfl rfl⟩

/-- **One byte.** -/
theorem type_follows (h : Follows s e) (hroom : e.line.length < Shell.BUF_SIZE) (byte : UInt8) :
    ∃ s', s.type byte = .done s' ∧ Follows s' (e.type byte) := by
  obtain ⟨rest, hsize, htype⟩ := type_eq h hroom byte
  rw [htype]
  by_cases hb : byte = Shell.ENTER
  · subst hb
    exact ackCmd_enter h hsize
  · by_cases hd : byte = Shell.DEL ∨ byte = Shell.BACKSPACE
    · exact ackCmd_delete h hd hsize
    · by_cases hc : byte = Shell.CTRL_C
      · subst hc
        exact ackCmd_ctrlC h hsize
      · exact ackCmd_other h hroom hb hd hc hsize

end

/-! ## 4. The length of the line -/

theorem edit_concat (typed : List UInt8) (byte : UInt8) :
    edit (typed ++ [byte]) = (edit typed).type byte := by
  unfold edit
  rw [List.foldl_append]
  rfl

theorem edit_replicate (n : Nat) : (edit (List.replicate n 0x61)).line.length = n := by
  induction n with
  | zero => rfl
  | succ n ih =>
    rw [List.replicate_succ', edit_concat]
    exact List.length_append.trans (congrArg (· + 1) ih)

end LsePc.Bios
