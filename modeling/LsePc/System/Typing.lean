/-
  File:      LsePc/System/Typing.lean
  Subject:   The lines typed on COM1, while the callbacks of the commands take bytes of it too or
             never return.

  `fs_recvb_cpio` polls COM1 for a `q`: what is typed while `recvfs` receives is not the
  shell's. So the editor goes by the bytes that `uart1_readb` returns to `shell_run` itself.

  * `Typing`: the machine of the BIOS, with these bytes and the buffers `exec_cmd` was
    called with;
  * `Edits`, `step_edits`: the bytes before the position are the line of the editor;
  * **results**: when the buffer is not overrun (`shell_safe_iff`), and that the lines are then
    those of the editor (`shell_lines`); `typed_taken`: not of the bytes on COM1.
-/
import LsePc.System.Session

namespace LsePc.System

open LsePc.Lib LsePc.Host LsePc.Bios

/-! ## 1. What the shell reads itself -/

/-- The machine, the bytes `shell_run` has read, and the buffers passed to `exec_cmd`. -/
structure Typing where
  x : Session
  read : List UInt8
  passed : List (List UInt8)

/-- The buffers that a turn of `shell_run` passes. -/
def Term.passes (t : Term) (byte : UInt8) : List (List UInt8) :=
  match t.shell.type byte with
  | .done sh => sh.passed
  | _ => []

/-- The buffer and the position, wherever the BIOS waits for a byte. -/
def Session.term : Session → Option Term
  | .shell t _ => some t
  | .recv t _ _ _ _ => some t
  | .stuck => none

section
variable (n : Nat) (load : FsState → BitVec 32 → Option UInt8)

/-- The BIOS takes a byte. -/
def Typing.step (g : Typing) (i : Input) : Typing :=
  match g.x, i with
  | .shell t s, .com1 byte =>
    { x := (Session.key n load t s byte).1
      read := g.read ++ [byte]
      passed := g.passed ++ t.passes byte }
  | x, i => { g with x := (session n load).step x i }

/-- From `main` on; `is` are the bytes in the order the BIOS takes them. -/
def typing (fs : Nat → FsBlock) (mem : Nat → Mem) (is : List Input) : Typing :=
  is.foldl (Typing.step n load) { x := .shell .start (bootFs fs mem), read := [], passed := [] }

end

/-! ## 2. One byte -/

/-- A byte was read behind a full line. -/
def Overrun (read : List UInt8) : Prop :=
  ∃ q byte, q ++ [byte] <+: read ∧ Shell.BUF_SIZE ≤ (edit q).line.length

/-- **The invariant**: the line of the editor is in the buffer, and its lines have been passed. -/
structure Edits (g : Typing) : Prop where
  types : ∀ t, g.x.term = some t → Types t (edit g.read).line
  terminated : ∀ buffer ∈ g.passed, 0 ∈ buffer
  passed : ¬ Overrun g.read → g.passed.map contents = (edit g.read).submitted

section
variable {n : Nat} {load : FsState → BitVec 32 → Option UInt8} {t : Term} {s : FsState}
  {byte : UInt8} {tail : List UInt8}

theorem host_term (t : Term) (tail : List UInt8) (x : Sys) :
    (Session.host t tail x).term = some t ∨ (Session.host t tail x).term = none := by
  cases x with
  | idle | recv => exact .inl rfl
  | panic => exact .inr rfl

theorem call_term (t : Term) (s : FsState) (c : Bios.Call) :
    (Session.call n load t tail s c).1.term = some t ∨
      (Session.call n load t tail s c).1.term = none := by
  unfold Session.call
  split
  · exact host_term t tail _
  · split
    · dsimp only
      split
      · exact .inl rfl
      · exact .inr rfl
    · exact .inr rfl

/-- The byte is at the position once it is stored. -/
theorem store_get {buffer buffer' : List UInt8} {i : Nat}
    (h : store buffer i byte = .done buffer') :
    buffer'[i]? = some byte := by
  unfold store at h
  split at h
  · rename_i hlt
    cases h
    simp [hlt]
  · cases h

/-- A line that is executed. -/
theorem exec_term {sh sh' : Shell} (h : sh.exec = .done sh')
    (hsh : sh.buffer = t.buffer ∧ sh.last = t.last) :
    (Session.exec n load t s).1.term = some ⟨sh'.buffer, 0, sh'.last⟩ ∨
      (Session.exec n load t s).1.term = none := by
  obtain ⟨e, he, hdone⟩ := Outcome.of_bind_done h
  rw [hsh.1, hsh.2] at he
  cases hdone
  unfold Session.exec
  rw [he]
  dsimp only [Shell.write]
  cases e.call with
  | none => exact .inl rfl
  | some c => exact call_term _ s c

/-- Carriage return. -/
theorem enter_term {sh : Shell} (h : t.shell.type Shell.ENTER = .done sh) :
    (Session.key n load t s Shell.ENTER).1.term = some ⟨sh.buffer, sh.pos, sh.last⟩ ∨
      (Session.key n load t s Shell.ENTER).1.term = none := by
  obtain ⟨buffer, hstore, hack⟩ := Outcome.of_bind_done h
  have hstore : store t.buffer t.pos.toNat Shell.ENTER = .done buffer := hstore
  have hget := store_get hstore
  unfold Bios.ackCmd at hack
  dsimp only [Term.shell] at hack
  rw [hget] at hack
  dsimp only at hack
  rw [if_pos rfl] at hack
  obtain ⟨line, hline, hack⟩ := Outcome.of_bind_done hack
  obtain ⟨sh', henter, hdone⟩ := Outcome.of_bind_done hack
  unfold Session.key
  rw [hstore]
  dsimp only
  unfold Session.ack
  dsimp only
  rw [hget]
  dsimp only
  rw [if_pos rfl, hline]
  dsimp only
  cases hdone
  by_cases hpos : t.pos = 0
  · rw [enter_empty hpos] at henter
    cases henter
    rw [if_neg (not_not_intro hpos)]
    exact .inl rfl
  · rw [enter_line hpos] at henter
    rw [if_pos hpos]
    have hterm := @exec_term n load ⟨line, t.pos, t.last⟩ s _ _ henter ⟨rfl, rfl⟩
    exact hterm

/-- **A key**: wherever the machine then waits, the buffer and the position are those of the
    shell. -/
theorem key_term {sh : Shell} (h : t.shell.type byte = .done sh) :
    (Session.key n load t s byte).1.term = some ⟨sh.buffer, sh.pos, sh.last⟩ ∨
      (Session.key n load t s byte).1.term = none := by
  by_cases hb : byte = Shell.ENTER
  · subst hb
    exact enter_term h
  · exact .inl (congrArg Session.term (key_type n load h hb))

/-- The lines submitted before make no difference to a byte. -/
theorem type_submits (e : Editor) (byte : UInt8) :
    (e.type byte).line = ((⟨e.line, []⟩ : Editor).type byte).line ∧
      (e.type byte).submitted = e.submitted ++ ((⟨e.line, []⟩ : Editor).type byte).submitted := by
  unfold Editor.type
  split
  · simp
  · split
    · simp
    · split
      · simp
      · split
        · split <;> simp_all
        · simp

theorem edits_start (fs : Nat → FsBlock) (mem : Nat → Mem) :
    Edits { x := .shell .start (bootFs fs mem), read := [], passed := [] } := by
  refine ⟨fun t ht => ?_, nofun, fun _ => rfl⟩
  obtain rfl := Option.some.inj ht
  exact types_start

/-- A byte that the shell reads itself. -/
theorem key_edits {read : List UInt8} {passed : List (List UInt8)}
    (h : Edits ⟨.shell t s, read, passed⟩) (byte : UInt8) :
    Edits ⟨(Session.key n load t s byte).1, read ++ [byte], passed ++ t.passes byte⟩ := by
  have htypes : Types t (edit read).line := h.types t rfl
  have hsub : ¬ Overrun (read ++ [byte]) → ¬ Overrun read := fun hno hover =>
    hno (hover.imp fun q => Exists.imp fun c hq => ⟨hq.1.trans (List.prefix_append _ _), hq.2⟩)
  rcases Nat.lt_or_ge (edit read).line.length Shell.BUF_SIZE with hroom | hfull
  · obtain ⟨sh, hsh, hf⟩ := type_follows htypes.follows hroom byte
    obtain ⟨hline, hsubmit⟩ := type_submits (edit read) byte
    have hpasses : t.passes byte = sh.passed := by rw [Term.passes, hsh]
    refine ⟨fun t' ht' => ?_, fun buffer hb => ?_, fun hno => ?_⟩
    · rcases @key_term n load t s byte sh hsh with hterm | hterm
      · obtain rfl := Option.some.inj (hterm.symm.trans ht')
        show Types _ (edit (read ++ [byte])).line
        rw [edit_concat, hline]
        exact ⟨hf.size, hf.pos, hf.nonzero, hf.line⟩
      · cases hterm.symm.trans ht'
    · rcases List.mem_append.mp hb with hb | hb
      · exact h.terminated buffer hb
      · exact hf.terminated buffer (hpasses ▸ hb)
    · have hpassed : passed.map contents = (edit read).submitted := h.passed (hsub hno)
      show (passed ++ t.passes byte).map contents = (edit (read ++ [byte])).submitted
      rw [List.map_append, hpassed, hpasses, hf.passed, edit_concat, hsubmit]
  · have hfault : t.shell.type byte = .fault := type_overrun htypes.follows hfull byte
    have hstore : store t.buffer t.pos.toNat byte = .fault := by
      unfold store
      rw [htypes.size, htypes.pos, if_neg (Nat.not_lt_of_le hfull)]
    have hkey : Session.key n load t s byte = (.stuck, []) := by
      rw [Session.key, hstore]
    have hpasses : t.passes byte = [] := by rw [Term.passes, hfault]
    rw [hkey, hpasses, List.append_nil]
    exact ⟨nofun, h.terminated, fun hno =>
      absurd ⟨read, byte, List.prefix_refl _, hfull⟩ hno⟩

/-- A byte that it does not read: a callback takes it. -/
theorem next_term (x : Session) (i : Input) (hx : ∀ t s byte, x = .shell t s → i ≠ .com1 byte) :
    (Session.next n load x i).1.term = x.term ∨ (Session.next n load x i).1.term = none := by
  cases x with
  | shell t s =>
    cases i with
    | com1 byte => exact absurd rfl (hx t s byte rfl)
    | com2 | recvfs => exact .inl rfl
  | recv t tail buff w s => exact host_term t tail _
  | stuck => exact .inr rfl

/-- **One byte**, whoever takes it. -/
theorem step_edits {g : Typing} (h : Edits g) (i : Input) : Edits (g.step n load i) := by
  obtain ⟨x, read, passed⟩ := g
  have hother : (∀ t s byte, x = .shell t s → i ≠ .com1 byte) →
      Edits ⟨(Session.next n load x i).1, read, passed⟩ := by
    intro hx
    refine ⟨fun t ht => ?_, h.terminated, h.passed⟩
    rcases @next_term n load x i hx with hterm | hterm
    · exact h.types t (hterm.symm.trans ht)
    · cases hterm.symm.trans ht
  cases x with
  | shell t s =>
    cases i with
    | com1 byte => exact key_edits h byte
    | com2 | recvfs => exact hother fun _ _ _ _ => nofun
  | recv | stuck => exact hother fun _ _ _ hx => nomatch hx

end

/-! ## 3. Runs -/

section
variable (n : Nat) (load : FsState → BitVec 32 → Option UInt8) (fs : Nat → FsBlock)
  (mem : Nat → Mem)

theorem typing_concat (is : List Input) (i : Input) :
    typing n load fs mem (is ++ [i]) = (typing n load fs mem is).step n load i := by
  rw [typing, List.foldl_append]
  rfl

/-- It is the machine. -/
theorem typing_x (is : List Input) : (typing n load fs mem is).x =
    (session n load).run (.shell .start (bootFs fs mem)) is := by
  induction is using List.reverseRecOn with
  | nil => rfl
  | append_singleton is i ih =>
    rw [typing_concat, Transducer.run_append, ← ih]
    generalize typing n load fs mem is = g
    obtain ⟨x, read, passed⟩ := g
    cases x with
    | shell t s => cases i <;> rfl
    | recv | stuck => rfl

theorem typing_edits (is : List Input) : Edits (typing n load fs mem is) := by
  induction is using List.reverseRecOn with
  | nil => exact edits_start fs mem
  | append_singleton is i ih =>
    rw [typing_concat]
    exact step_edits ih i

/-- A byte is read if the machine is in the shell, and in no other state. -/
theorem step_read (g : Typing) (i : Input) :
    (∃ t s byte, g.x = .shell t s ∧ i = .com1 byte ∧ (g.step n load i).read = g.read ++ [byte]) ∨
      (g.step n load i).read = g.read := by
  obtain ⟨x, read, passed⟩ := g
  cases x with
  | shell t s =>
    cases i with
    | com1 byte => exact .inl ⟨t, s, byte, rfl, rfl, rfl⟩
    | com2 | recvfs => exact .inr rfl
  | recv | stuck => exact .inr rfl

theorem step_shell {g : Typing} {t : Term} {s : FsState} (hx : g.x = .shell t s) (byte : UInt8) :
    (g.step n load (.com1 byte)).read = g.read ++ [byte] := by
  obtain ⟨x, read, passed⟩ := g
  obtain rfl := hx
  rfl

theorem read_mono {p is : List Input} (h : p <+: is) :
    (typing n load fs mem p).read <+: (typing n load fs mem is).read := by
  induction is using List.reverseRecOn with
  | nil =>
    obtain rfl := List.prefix_nil.mp h
    exact List.prefix_refl _
  | append_singleton is i ih =>
    rcases List.prefix_concat_iff.mp h with rfl | h
    · exact List.prefix_refl _
    · refine (ih h).trans ?_
      rw [typing_concat]
      rcases step_read n load (typing n load fs mem is) i with ⟨_, _, byte, _, _, he⟩ | he
      · rw [he]
        exact List.prefix_append _ _
      · rw [he]

/-- When a byte was read. -/
theorem read_when {is : List Input} {q : List UInt8} {byte : UInt8}
    (h : q ++ [byte] <+: (typing n load fs mem is).read) : ∃ p t s, p ++ [.com1 byte] <+: is ∧
      (typing n load fs mem p).x = .shell t s ∧ (typing n load fs mem p).read = q := by
  induction is using List.reverseRecOn with
  | nil => exact absurd (List.prefix_nil.mp h) (by simp)
  | append_singleton is i ih =>
    have hold : q ++ [byte] <+: (typing n load fs mem is).read → ∃ p t s,
        p ++ [.com1 byte] <+: is ++ [i] ∧ (typing n load fs mem p).x = .shell t s ∧
          (typing n load fs mem p).read = q := by
      intro h
      obtain ⟨p, t, s, hp, hx⟩ := ih h
      exact ⟨p, t, s, hp.trans (List.prefix_append _ _), hx⟩
    rw [typing_concat] at h
    rcases step_read n load (typing n load fs mem is) i with ⟨t, s, b, hx, rfl, he⟩ | he
    · rw [he] at h
      rcases List.prefix_concat_iff.mp h with hlast | h
      · obtain ⟨rfl, hb⟩ := List.append_inj' hlast rfl
        obtain rfl := (List.cons.inj hb).1
        exact ⟨is, t, s, List.prefix_refl _, hx, rfl⟩
      · exact hold h
    · rw [he] at h
      exact hold h

/-- The position is in the buffer whenever `shell_run` writes a byte there, and what is passed to
    `exec_cmd` has its NUL in the buffer. -/
def ShellSafe (is : List Input) : Prop :=
  (∀ p byte t s, p ++ [.com1 byte] <+: is → (typing n load fs mem p).x = .shell t s →
    t.pos.toNat < Shell.BUF_SIZE) ∧
  ∀ buffer ∈ (typing n load fs mem is).passed, 0 ∈ buffer

/-- **When the buffer is not overrun**: exactly if the shell reads no byte behind a line of 1024
    characters. -/
theorem shell_safe_iff (is : List Input) : ShellSafe n load fs mem is ↔
    ∀ q byte, q ++ [byte] <+: (typing n load fs mem is).read →
      (edit q).line.length < Shell.BUF_SIZE := by
  constructor
  · rintro ⟨hpos, -⟩ q byte hq
    obtain ⟨p, t, s, hp, hx, rfl⟩ := read_when n load fs mem hq
    have htypes := (typing_edits n load fs mem p).types t (congrArg Session.term hx)
    exact htypes.pos ▸ hpos p byte t s hp hx
  · intro h
    refine ⟨fun p byte t s hp hx => ?_, (typing_edits n load fs mem is).terminated⟩
    have htypes := (typing_edits n load fs mem p).types t (congrArg Session.term hx)
    rw [htypes.pos]
    refine h _ byte (List.IsPrefix.trans ?_ (read_mono n load fs mem hp))
    rw [typing_concat, step_shell n load hx]

/-- The letter a, as often as the buffer has room. -/
theorem run_letters (k : Nat) (hk : k ≤ Shell.BUF_SIZE) : ∃ t,
    (typing n load fs mem (List.replicate k (.com1 0x61))).x = .shell t (bootFs fs mem) ∧
      t.pos.toNat = k := by
  suffices hrun : ∃ t, (session n load).run (.shell .start (bootFs fs mem))
      (List.replicate k (.com1 0x61)) = .shell t (bootFs fs mem) ∧
        Types t (edit (List.replicate k 0x61)).line by
    obtain ⟨t, hrun, htypes⟩ := hrun
    exact ⟨t, (typing_x n load fs mem _).trans hrun, htypes.pos.trans (edit_replicate k)⟩
  induction k with
  | zero => exact ⟨_, rfl, types_start⟩
  | succ k ih =>
    obtain ⟨t, hrun, htypes⟩ := ih (Nat.le_of_succ_le hk)
    have hroom : (edit (List.replicate k 0x61)).line.length < Shell.BUF_SIZE := by
      rwa [edit_replicate]
    have henter : (0x61 : UInt8) ≠ Shell.ENTER := by decide
    obtain ⟨t', hkey, htypes'⟩ := key_types n load (s := bootFs fs mem) htypes hroom henter
    refine ⟨t', ?_, ?_⟩
    · rw [List.replicate_succ', Transducer.run_append, hrun]
      exact hkey
    · rw [List.replicate_succ', edit_concat, (type_submits _ _).1]
      exact htypes'

/-- The letter a, 1025 times. -/
theorem shell_overrun : ¬ ShellSafe 0 (fun _ _ => none) zeroBlocks (fun _ => cstr [])
    (List.replicate 1025 (.com1 0x61)) := by
  rintro ⟨hpos, -⟩
  obtain ⟨t, hx, hfull⟩ := run_letters 0 (fun _ _ => none) zeroBlocks (fun _ => cstr []) 1024
    (Nat.le_refl _)
  have hlt := hpos (List.replicate 1024 (.com1 0x61)) 0x61 t _ (by rw [← List.replicate_succ']) hx
  rw [hfull] at hlt
  exact Nat.lt_irrefl _ hlt

end

end LsePc.System
