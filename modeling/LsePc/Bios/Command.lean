/-
  File:      LsePc/Bios/Command.lean
  Subject:   A command line of the shell: `strtok_c` (sw/bios/src/string.c), `exec_cmd` (shell.c)
             and the commands (command.c).

  * `strtokC`: a pointer is a place in the line buffer, `last` is the static pointer;
  * `commands`, `getCommand`, `Call.run`: the table and the callbacks, as far as they read their
    arguments. An argument at or beyond `argc` is a `fault`;
  * `execCmd`: the argument loop, the checks and the call;
  * `words`: the maximal substrings without a space;
  * **result** (`exec_cmd_dispatches`): what is called for a line, and with what.

  What the commands do and print is in Fs.lean, Output.lean and System/Console.lean.
-/
import LsePc.Bios.Atoi
import LsePc.Bios.PrintFile

namespace LsePc.Bios

open LsePc.Lib

/-! ## 1. `strtok_c` -/

/-- `while (p(*run)) ++run;` -/
def skip (p : UInt8 → Bool) : List UInt8 → Nat → Outcome Nat
  | [], _ => .fault
  | c :: str, run => if p c then skip p str (run + 1) else .done run

/-- What `strtok_c` returns, the buffer and `last`. -/
structure Token where
  res : Option Nat
  buffer : List UInt8
  last : Option Nat
  deriving DecidableEq, Repr

/-- `last = *run == '\0' ? NULL : run; return res;` -/
def Token.at (res run : Nat) (buffer : List UInt8) : Outcome Token :=
  match buffer[run]? with
  | none => .fault
  | some c => .done ⟨some res, buffer, if c = 0 then none else some run⟩

def strtokC (buffer : List UInt8) (last str : Option Nat) (delim : UInt8) : Outcome Token :=
  match str.or last with
  | none => .done ⟨none, buffer, last⟩
  | some run => do
    let res ← skip (· == delim) (buffer.drop run) run
    let run ← skip (fun c => c != delim && c != 0) (buffer.drop res) res
    match buffer[run]? with
    | none => .fault
    | some c =>
      if c ≠ 0 then do
        let after ← skip (· == delim) (buffer.drop run) run
        let buffer ← store buffer run 0
        Token.at res after buffer
      else Token.at res run buffer

/-- The string at a pointer. -/
def strAt : List UInt8 → Outcome (List UInt8)
  | [] => .fault
  | c :: str => if c = 0 then .done [] else strAt str >>= fun s => .done (c :: s)

/-! ## 2. The commands -/

inductive Callback where
  | help | memory | ls | printFile | recvfs | stats
  deriving DecidableEq, Repr

structure Command where
  name : List UInt8
  minArgs : Nat
  maxArgs : Nat
  callback : Callback
  help : List UInt8
  deriving DecidableEq, Repr

def commands : List Command :=
  [{ name := ascii "help", minArgs := 0, maxArgs := 1, callback := .help,
     help := ascii "usage: help [command]\r\n\r\nDisplay the help of the given command\r\n" },
   { name := ascii "memory", minArgs := 2, maxArgs := 2, callback := .memory,
     help := ascii "usage: memory address length\r\n\r\nDump the content of the memory\r\n" ++
      ascii "\r\npositional arguments:\r\n\taddress\tstart address\r\n" ++
      ascii "\tlength\tbyte length\r\n" },
   { name := ascii "ls", minArgs := 0, maxArgs := 1, callback := .ls,
     help := ascii "usage: ls [dir]\r\n\r\nList directory\r\n" },
   { name := ascii "p", minArgs := 1, maxArgs := 1, callback := .printFile,
     help := ascii "usage: p [file]\r\n\r\nPrint file content\r\n" },
   { name := ascii "recvfs", minArgs := 0, maxArgs := 0, callback := .recvfs,
     help := ascii "usage: recv\r\n\r\nReceive CPIO archive on COM2\r\n" },
   { name := ascii "stats", minArgs := 0, maxArgs := 0, callback := .stats,
     help := ascii "usage: stats\r\n\r\nPrint memory usage stats\r\n" }]

def getCommand (name : List UInt8) : Option Command :=
  commands.find? fun cmd => strcmp (cstr cmd.name) name == 0

/-- `callback(cmd, argc, argv)`, with the line buffer that `argv` points into. -/
structure Call where
  cmd : Command
  argc : Nat
  argv : List (Option Nat)
  buffer : List UInt8
  deriving DecidableEq, Repr

/-- The string at `argv[i]`. -/
def argStr (argv : List (Option Nat)) (buffer : List UInt8) (i : Nat) : Outcome (List UInt8) :=
  match argv[i]? with
  | some (some p) => strAt (buffer.drop p)
  | _ => .fault

/-- The same, as a callback may read it. -/
def Call.arg (c : Call) (i : Nat) : Outcome (List UInt8) :=
  if i < c.argc then argStr c.argv c.buffer i else .fault

/-- What a callback does, apart from reading its arguments. -/
inductive Effect where
  | print (text : List UInt8)
  | dump (address length : BitVec 32)
  | listDir (path : Option (List UInt8))
  | printFile (path : List UInt8)
  | recvCpio
  | stats
  deriving DecidableEq, Repr

def help (c : Call) : Outcome (Nat × List Effect) :=
  if c.argc = 1 then
    .done (0, [.print (c.cmd.help ++ ascii "\nCommands:\n" ++
      commands.flatMap fun cmd => ascii "\t\t" ++ cmd.name ++ ascii "\n")])
  else do
    let name ← c.arg 1
    match getCommand name with
    | some cmd => .done (0, [.print cmd.help])
    | none => .done (0, [.print (c.cmd.name ++ ascii ": command `" ++ name ++
        ascii "' does not exist\n")])

/-- `atoi` is given so many rounds for each argument. -/
def memory (rounds : Nat) (c : Call) : Outcome (Nat × List Effect) :=
  if c.argc = 1 then .done (0, [.print c.cmd.help])
  else do
    let arg ← c.arg 1
    let address ← atoi rounds 0 (some arg)
    let arg ← c.arg 2
    let length ← atoi rounds 0 (some arg)
    if address.1 ≠ 0 ∨ length.1 ≠ 0 then
      .done (1,
        (if address.1 ≠ 0 then
          [.print (c.cmd.name ++ ascii ": `address' must be an integer\n")] else []) ++
        (if length.1 ≠ 0 then
          [.print (c.cmd.name ++ ascii ": `length' must be an integer\n")] else []))
    else .done (0, [.dump address.2 length.2, .print (ascii "\n")])

def ls (c : Call) : Outcome (Nat × List Effect) :=
  if 1 < c.argc then do
    let path ← c.arg 1
    .done (0, [.listDir (some path)])
  else .done (0, [.listDir none])

def printFile (c : Call) : Outcome (Nat × List Effect) :=
  if c.argc = 1 then .done (1, [])
  else do
    let path ← c.arg 1
    .done (0, [.printFile path])

/-- The callback of a command. -/
def Call.run (rounds : Nat) (c : Call) : Outcome (Nat × List Effect) :=
  match c.cmd.callback with
  | .help => help c
  | .memory => memory rounds c
  | .ls => ls c
  | .printFile => printFile c
  | .recvfs => .done (0, [.recvCpio])
  | .stats => .done (0, [.stats])

/-! ## 3. `exec_cmd` -/

def COMMAND_MAX_ARGS : Nat := 32

def BLANK : UInt8 := 0x20

/-- `argv[i] = arg`. -/
def storeArg (argv : List (Option Nat)) (i : Nat) (arg : Option Nat) :
    Outcome (List (Option Nat)) :=
  if i < argv.length then .done (argv.set i arg) else .fault

/-- The state of the argument loop. -/
structure Args where
  nbArgs : Nat
  argv : List (Option Nat)
  buffer : List UInt8
  last : Option Nat
  deriving DecidableEq, Repr

def argRound (s : Args) : Round Args Args :=
  match strtokC s.buffer s.last none BLANK with
  | .done tok =>
    match storeArg s.argv (s.nbArgs + 1) tok.res with
    | .done argv =>
      let s := { nbArgs := s.nbArgs + 1, argv := argv, buffer := tok.buffer, last := tok.last }
      if s.nbArgs < COMMAND_MAX_ARGS ∧ tok.res ≠ none then .next s else .leave s
    | _ => .fault
  | _ => .fault

/-- What `exec_cmd` has done: the call it made, what it wrote on COM1 itself, the buffer and
    the static pointer. -/
structure Exec where
  call : Option Call
  text : List UInt8
  buffer : List UInt8
  last : Option Nat
  deriving DecidableEq, Repr

/-- The checks behind the argument loop, and the call. -/
def checkArgs (cmd : Command) (s : Args) : Outcome Exec :=
  if s.nbArgs ≠ 1 ∧ s.nbArgs - 1 < cmd.minArgs then do
    let name ← argStr s.argv s.buffer 0
    .done ⟨none, name ++ ascii ": not enough arguments\n" ++ cmd.help ++ ascii "\n\n",
      s.buffer, s.last⟩
  else if cmd.maxArgs < s.nbArgs - 1 then do
    let name ← argStr s.argv s.buffer 0
    .done ⟨none, name ++ ascii ": too much arguments\n" ++ cmd.help ++ ascii "\n\n",
      s.buffer, s.last⟩
  else do
    let argv ← storeArg s.argv s.nbArgs none
    .done ⟨some ⟨cmd, s.nbArgs, argv, s.buffer⟩, ascii "\n", s.buffer, s.last⟩

/-- `nb_args` counts the rounds of the loop, so that they are never too few. -/
def execCmd (buffer : List UInt8) (last : Option Nat) : Outcome Exec := do
  let tok ← strtokC buffer last (some 0) BLANK
  match tok.res with
  | none => .fault
  | some p => do
    let name ← strAt (tok.buffer.drop p)
    match getCommand name with
    | some cmd => do
      let s ← runLoop argRound COMMAND_MAX_ARGS
        { nbArgs := 0, argv := some p :: List.replicate COMMAND_MAX_ARGS none,
          buffer := tok.buffer, last := tok.last }
      checkArgs cmd s
    | none => do
      let line ← strAt tok.buffer
      .done ⟨none, line ++ ascii ": command not found\n\n", tok.buffer, tok.last⟩

/-! ## 4. Words -/

/-- The maximal substrings without a space, in order. -/
def words (line : List UInt8) : List (List UInt8) :=
  (line.splitOnP (· == BLANK)).filter (· ≠ [])

section
variable {w t : List UInt8}

theorem no_blank (hw : BLANK ∉ w) : ∀ c ∈ w, (c == BLANK) = false :=
  fun _ hc => beq_eq_false_iff_ne.mpr fun e => hw (e ▸ hc)

theorem words_nil : words [] = [] := rfl

theorem words_blank (t : List UInt8) : words (BLANK :: t) = words t := by
  unfold words
  have h := @List.splitOnP_append_cons_of_forall_mem _ (· == BLANK) []
    (List.forall_mem_nil _) BLANK (by decide) t
  rw [List.nil_append] at h
  rw [h, List.filter_cons_of_neg (by decide)]

theorem words_word (hw : BLANK ∉ w) (hne : w ≠ []) : words w = [w] := by
  unfold words
  rw [List.splitOnP_eq_singleton (no_blank hw)]
  exact List.filter_cons_of_pos (decide_eq_true hne)

theorem words_word_blank (hw : BLANK ∉ w) (hne : w ≠ []) (t : List UInt8) :
    words (w ++ BLANK :: t) = w :: words t := by
  unfold words
  rw [List.splitOnP_append_cons_of_forall_mem (no_blank hw) BLANK (by decide)]
  exact List.filter_cons_of_pos (decide_eq_true hne)

theorem words_gap {gap : List UInt8} (h : ∀ c ∈ gap, c = BLANK) (t : List UInt8) :
    words (gap ++ t) = words t := by
  induction gap with
  | nil => rfl
  | cons c gap ih =>
    obtain ⟨hc, h⟩ := List.forall_mem_cons.mp h
    rw [hc, List.cons_append, words_blank, ih h]

/-- Blanks, then no blank. -/
theorem exists_gap (t : List UInt8) : ∃ gap t', t = gap ++ t' ∧ (∀ c ∈ gap, c = BLANK) ∧
    t'.head? ≠ some BLANK := by
  induction t with
  | nil => exact ⟨[], [], rfl, nofun, nofun⟩
  | cons c t ih =>
    by_cases hc : c = BLANK
    · obtain ⟨gap, t', rfl, hgap, ht'⟩ := ih
      exact ⟨c :: gap, t', rfl, List.forall_mem_cons.mpr ⟨hc, hgap⟩, ht'⟩
    · exact ⟨[], c :: t, rfl, nofun, fun h => hc (Option.some.inj h)⟩

/-- A word, then its end. -/
theorem exists_word (t : List UInt8) : ∃ w, BLANK ∉ w ∧
    (t = w ∨ ∃ t', t = w ++ BLANK :: t') := by
  induction t with
  | nil => exact ⟨[], nofun, .inl rfl⟩
  | cons c t ih =>
    by_cases hc : c = BLANK
    · exact ⟨[], nofun, .inr ⟨t, hc ▸ rfl⟩⟩
    · obtain ⟨w, hw, ht⟩ := ih
      refine ⟨c :: w, fun h => (List.mem_cons.mp h).elim (Ne.symm hc) hw, ?_⟩
      rcases ht with rfl | ⟨t', rfl⟩
      · exact .inl rfl
      · exact .inr ⟨t', rfl⟩

/-- A text: spaces; then a word; then a space and more. -/
inductive Shape : List UInt8 → Prop where
  | blank {gap : List UInt8} (hgap : ∀ c ∈ gap, c = BLANK) : Shape gap
  | last {gap w : List UInt8} (hgap : ∀ c ∈ gap, c = BLANK) (hw : BLANK ∉ w) (hne : w ≠ []) :
      Shape (gap ++ w)
  | more {gap w d : List UInt8} (hgap : ∀ c ∈ gap, c = BLANK) (hw : BLANK ∉ w) (hne : w ≠ []) :
      Shape (gap ++ (w ++ BLANK :: d))

theorem shape (d : List UInt8) : Shape d := by
  obtain ⟨gap, t, rfl, hgap, ht⟩ := exists_gap d
  obtain ⟨w, hw, rfl | ⟨d, rfl⟩⟩ := exists_word t
  · by_cases hne : t = []
    · subst hne
      rw [List.append_nil]
      exact .blank hgap
    · exact .last hgap hw hne
  · refine .more hgap hw ?_
    rintro rfl
    exact ht rfl

theorem words_spaces {gap : List UInt8} (hgap : ∀ c ∈ gap, c = BLANK) : words gap = [] := by
  have h := words_gap hgap []
  rwa [List.append_nil] at h

theorem words_last {gap : List UInt8} (hgap : ∀ c ∈ gap, c = BLANK) (hw : BLANK ∉ w)
    (hne : w ≠ []) : words (gap ++ w) = [w] := by
  rw [words_gap hgap, words_word hw hne]

theorem words_more {gap : List UInt8} (hgap : ∀ c ∈ gap, c = BLANK) (hw : BLANK ∉ w) (hne : w ≠ [])
    (d : List UInt8) : words (gap ++ (w ++ BLANK :: d)) = w :: words d := by
  rw [words_gap hgap, words_word_blank hw hne]

/-- Without a word and without a space there is nothing. -/
theorem eq_nil_of_words {t : List UInt8} (ht : t.head? ≠ some BLANK) (hws : words t = []) :
    t = [] := by
  cases shape t with
  | blank hgap =>
    cases t with
    | nil => rfl
    | cons c t => exact absurd (congrArg some (hgap c List.mem_cons_self)) ht
  | last hgap hw hne =>
    rw [words_last hgap hw hne] at hws
    nomatch hws
  | @more gap w d hgap hw hne =>
    rw [words_more hgap hw hne] at hws
    nomatch hws

end

/-! ## 5. The tokeniser -/

section
variable {buffer pre gap w t junk : List UInt8} {last str : Option Nat}

theorem skip_append {p : UInt8 → Bool} {c : UInt8} {l rest : List UInt8} (h : ∀ c ∈ l, p c = true)
    (hc : p c = false) (run : Nat) : skip p (l ++ c :: rest) run = .done (run + l.length) := by
  induction l generalizing run with
  | nil =>
    rw [List.nil_append, skip, hc]
    rfl
  | cons c' l ih =>
    obtain ⟨hc', hl⟩ := List.forall_mem_cons.mp h
    rw [List.cons_append, skip, hc', List.length_cons, Nat.add_comm l.length, ← Nat.add_assoc]
    exact ih hl (run + 1)

/-- The two loops find the word behind the blanks at `pre`, and the byte that ends it. -/
theorem strtokC_find {c : UInt8} {rest : List UInt8} (hrun : str.or last = some pre.length)
    (hgap : ∀ c ∈ gap, c = BLANK) (hw : BLANK ∉ w) (hw0 : 0 ∉ w) (hc : c = BLANK ∨ c = 0)
    (hne : w = [] → c = 0) :
    strtokC (pre ++ (gap ++ (w ++ c :: rest))) last str BLANK =
      if c ≠ 0 then
        skip (· == BLANK) (c :: rest) (pre.length + gap.length + w.length) >>= fun after =>
          Token.at (pre.length + gap.length) after (pre ++ (gap ++ (w ++ 0 :: rest)))
      else Token.at (pre.length + gap.length) (pre.length + gap.length + w.length)
        (pre ++ (gap ++ (w ++ c :: rest))) := by
  obtain ⟨c', rest', hfirst, hc'⟩ : ∃ c' rest', w ++ c :: rest = c' :: rest' ∧
      (c' == BLANK) = false := by
    cases w with
    | nil => exact ⟨c, rest, rfl, hne rfl ▸ rfl⟩
    | cons c' w => exact ⟨c', _, rfl, no_blank hw c' List.mem_cons_self⟩
  have hstart : skip (· == BLANK) ((pre ++ (gap ++ (w ++ c :: rest))).drop pre.length) pre.length =
      .done (pre.length + gap.length) := by
    rw [List.drop_left, hfirst]
    exact skip_append (fun c hc => beq_iff_eq.mpr (hgap c hc)) hc' _
  have hword : ∀ c ∈ w, (c != BLANK && c != 0) = true := fun c hc =>
    Bool.and_eq_true_iff.mpr ⟨bne_iff_ne.mpr fun e => hw (e ▸ hc),
      bne_iff_ne.mpr fun e => hw0 (e ▸ hc)⟩
  have hstop : (c != BLANK && c != 0) = false := by
    rcases hc with rfl | rfl
    · rfl
    · rfl
  have hmid : skip (fun c => c != BLANK && c != 0)
      ((pre ++ (gap ++ (w ++ c :: rest))).drop (pre.length + gap.length))
      (pre.length + gap.length) = .done (pre.length + gap.length + w.length) := by
    rw [← List.append_assoc, ← List.length_append, List.drop_left]
    exact skip_append hword hstop _
  have hsplit : ∀ c : UInt8, pre ++ (gap ++ (w ++ c :: rest)) = (pre ++ gap ++ w) ++ c :: rest := by
    intro c
    rw [List.append_assoc, List.append_assoc]
  have hlen : pre.length + gap.length + w.length = (pre ++ gap ++ w).length := by
    rw [List.length_append, List.length_append]
  unfold strtokC
  rw [hrun]
  dsimp only
  rw [Outcome.bind_done hstart, Outcome.bind_done hmid, hlen, hsplit, get_length]
  dsimp only
  rw [List.drop_left, store_length, ← hsplit]
  rfl

/-- A word at the end of the line. -/
theorem strtokC_last (hrun : str.or last = some pre.length) (hgap : ∀ c ∈ gap, c = BLANK)
    (hw : BLANK ∉ w) (hw0 : 0 ∉ w) :
    strtokC (pre ++ (gap ++ (w ++ 0 :: junk))) last str BLANK =
      .done ⟨some (pre.length + gap.length), pre ++ (gap ++ (w ++ 0 :: junk)), none⟩ := by
  have hlen : pre.length + gap.length + w.length = (pre ++ gap ++ w).length := by
    rw [List.length_append, List.length_append]
  rw [strtokC_find hrun hgap hw hw0 (.inr rfl) fun _ => rfl, if_neg (not_not_intro rfl)]
  unfold Token.at
  rw [hlen, ← List.append_assoc, ← List.append_assoc, get_length]
  rfl

/-- A word with more behind it. -/
theorem strtokC_more {gap' : List UInt8} (hrun : str.or last = some pre.length)
    (hgap : ∀ c ∈ gap, c = BLANK) (hw : BLANK ∉ w) (hw0 : 0 ∉ w) (hne : w ≠ [])
    (hgap' : ∀ c ∈ gap', c = BLANK) (ht : t.head? ≠ some BLANK) (ht0 : 0 ∉ t) :
    strtokC (pre ++ (gap ++ (w ++ BLANK :: (gap' ++ (t ++ 0 :: junk))))) last str BLANK =
      .done ⟨some (pre.length + gap.length),
        (pre ++ (gap ++ (w ++ 0 :: gap'))) ++ (t ++ 0 :: junk),
        if t = [] then none else some (pre ++ (gap ++ (w ++ 0 :: gap'))).length⟩ := by
  obtain ⟨c, rest, hnext, hc, hc0⟩ : ∃ c rest, t ++ 0 :: junk = c :: rest ∧
      (c == BLANK) = false ∧ (c = 0 ↔ t = []) := by
    cases t with
    | nil => exact ⟨0, junk, rfl, rfl, iff_of_true rfl rfl⟩
    | cons c t =>
      exact ⟨c, _, rfl, beq_eq_false_iff_ne.mpr fun e => ht (congrArg some e),
        iff_of_false (fun e => ht0 (e ▸ List.mem_cons_self)) nofun⟩
  have hskip := @skip_append _ c (BLANK :: gap') rest
    (fun c hc => beq_iff_eq.mpr ((List.mem_cons.mp hc).elim id (hgap' c))) hc
    (pre.length + gap.length + w.length)
  rw [List.cons_append] at hskip
  have hlen : pre.length + gap.length + w.length + (BLANK :: gap').length =
      (pre ++ (gap ++ (w ++ 0 :: gap'))).length := by
    rw [List.length_append, List.length_append, List.length_append, List.length_cons,
      List.length_cons]
    omega
  rw [hnext, strtokC_find hrun hgap hw hw0 (.inl rfl) fun h => absurd h hne,
    if_pos (by decide), Outcome.bind_done hskip, hlen]
  have hsplit : pre ++ (gap ++ (w ++ 0 :: (gap' ++ c :: rest))) =
      (pre ++ (gap ++ (w ++ 0 :: gap'))) ++ c :: rest := by
    simp only [List.append_assoc, List.cons_append]
  unfold Token.at
  rw [hsplit, get_length]
  dsimp only
  by_cases h0 : c = 0
  · rw [if_pos h0, if_pos (hc0.mp h0)]
  · rw [if_neg h0, if_neg (mt hc0.mpr h0)]

/-- The string `w` is at `p`. -/
def At (buffer : List UInt8) (p : Nat) (w : List UInt8) : Prop :=
  0 ∉ w ∧ w ++ [0] <+: buffer.drop p

/-- The tokeniser has dealt with `pre`, `t` is to come. -/
structure Standing (buffer : List UInt8) (last : Option Nat) (pre t junk : List UInt8) : Prop where
  eq : buffer = pre ++ (t ++ 0 :: junk)
  last : last = if t = [] then none else some pre.length
  head : t.head? ≠ some BLANK
  nonzero : 0 ∉ t

theorem at_append {rest : List UInt8} (h0 : 0 ∉ w) : At (pre ++ (gap ++ (w ++ 0 :: rest)))
    (pre.length + gap.length) w := by
  refine ⟨h0, rest, ?_⟩
  rw [← List.append_assoc pre, ← List.length_append, List.drop_left, List.append_assoc]
  rfl

/-- **A token**: the first word, of which what is to come keeps off. -/
theorem strtokC_word {ws : List (List UInt8)} (hrun : str.or last = some pre.length)
    (h0 : 0 ∉ t) (hws : words t = w :: ws) :
    ∃ tok p pre' t', strtokC (pre ++ (t ++ 0 :: junk)) last str BLANK = .done tok ∧
      tok.res = some p ∧ Standing tok.buffer tok.last pre' t' junk ∧ words t' = ws ∧
      pre <+: pre' ∧ At tok.buffer p w ∧ (t' = [] ∨ p + w.length < pre'.length) ∧
      tok.buffer.length = (pre ++ (t ++ 0 :: junk)).length := by
  obtain ⟨gap, t, rfl, hgap, ht⟩ := exists_gap t
  rw [words_gap hgap] at hws
  obtain ⟨h0gap, h0⟩ := not_or.mp (List.mem_append.not.mp h0)
  obtain ⟨w', hw, rfl | ⟨t, rfl⟩⟩ := exists_word t
  · have hne : t ≠ [] := by
      rintro rfl
      nomatch hws
    obtain ⟨rfl, rfl⟩ := List.cons.inj ((words_word hw hne).symm.trans hws)
    have htok := @strtokC_last _ _ _ junk _ _ hrun hgap hw h0
    rw [List.append_assoc gap]
    refine ⟨_, _, pre ++ (gap ++ t), [], htok, rfl, ⟨?_, rfl, nofun, nofun⟩, words_nil,
      List.prefix_append _ _, at_append h0, .inl rfl, rfl⟩
    simp only [List.append_assoc, List.nil_append]
  · obtain ⟨h0w, h0t⟩ := not_or.mp (List.mem_append.not.mp h0)
    have hne : w' ≠ [] := by
      rintro rfl
      exact ht rfl
    rw [words_word_blank hw hne] at hws
    obtain ⟨rfl, hrest⟩ := List.cons.inj hws
    obtain ⟨gap', t, rfl, hgap', ht⟩ := exists_gap t
    rw [words_gap hgap'] at hrest
    have h0t : 0 ∉ t := fun h => h0t (List.mem_cons_of_mem _ (List.mem_append_right _ h))
    have htok := @strtokC_more _ _ _ _ junk _ _ _ hrun hgap hw h0w hne hgap' ht h0t
    have hline : pre ++ ((gap ++ (w' ++ BLANK :: (gap' ++ t))) ++ 0 :: junk) =
        pre ++ (gap ++ (w' ++ BLANK :: (gap' ++ (t ++ 0 :: junk)))) := by
      simp only [List.append_assoc, List.cons_append]
    rw [hline]
    refine ⟨_, _, _, t, htok, rfl, ⟨rfl, rfl, ht, h0t⟩, hrest, List.prefix_append _ _, ?_,
      .inr ?_, ?_⟩
    · have hat := @at_append pre gap _ (gap' ++ (t ++ 0 :: junk)) h0w
      simp only [List.append_assoc, List.cons_append]
      exact hat
    · simp only [List.length_append, List.length_cons]
      omega
    · simp only [List.length_append, List.length_cons]
      omega

/-- No token: a pointer to the NUL. -/
theorem strtokC_none (hrun : str.or last = some pre.length) (h0 : 0 ∉ t) (hws : words t = []) :
    ∃ p, strtokC (pre ++ (t ++ 0 :: junk)) last str BLANK =
      .done ⟨some p, pre ++ (t ++ 0 :: junk), none⟩ ∧ At (pre ++ (t ++ 0 :: junk)) p [] := by
  obtain ⟨gap, t, rfl, hgap, ht⟩ := exists_gap t
  rw [words_gap hgap] at hws
  obtain rfl := eq_nil_of_words ht hws
  rw [List.append_assoc gap]
  exact ⟨_, strtokC_last hrun hgap List.not_mem_nil List.not_mem_nil, at_append List.not_mem_nil⟩

/-- Bytes written behind it do not change a string. -/
theorem At.keep {p : Nat} {x y : List UInt8} (h : At (pre ++ x) p w)
    (hp : p + w.length < pre.length) : At (pre ++ y) p w := by
  obtain ⟨h0, h⟩ := h
  have hdrop : ∀ x : List UInt8, (pre ++ x).drop p = pre.drop p ++ x :=
    fun x => List.drop_append_of_le_length (by omega)
  rw [hdrop] at h
  refine ⟨h0, hdrop y ▸ List.IsPrefix.trans ?_ (List.prefix_append _ y)⟩
  refine List.prefix_of_prefix_length_le h (List.prefix_append _ x) ?_
  rw [List.length_append, List.length_singleton, List.length_drop]
  omega

theorem strAt_append {rest : List UInt8} (h0 : 0 ∉ w) : strAt (w ++ 0 :: rest) = .done w := by
  induction w with
  | nil => rfl
  | cons c w ih =>
    obtain ⟨hc, hw⟩ := not_or.mp (List.mem_cons.not.mp h0)
    rw [List.cons_append, strAt, if_neg (Ne.symm hc), Outcome.bind_done (ih hw)]

theorem At.strAt_eq {p : Nat} (h : At buffer p w) : strAt (buffer.drop p) = .done w := by
  obtain ⟨h0, rest, h⟩ := h
  rw [← h, List.append_assoc]
  exact strAt_append h0

end

/-! ## 6. The argument loop -/

/-- The first entries of `argv` are the strings `ts`. -/
def Points (argv : List (Option Nat)) (buffer : List UInt8) (ts : List (List UInt8)) : Prop :=
  ∀ (i : Nat) (t : List UInt8), ts[i]? = some t → argStr argv buffer i = .done t

/-- What the loop has done when it comes to its test: the words `ts` are in `argv`, and what is
    to come of the line keeps off them. -/
structure Parsed (s : Args) (ts : List (List UInt8)) (pre rest junk : List UInt8) : Prop where
  standing : Standing s.buffer s.last pre rest junk
  count : ts.length = s.nbArgs + 1
  room : s.argv.length = COMMAND_MAX_ARGS + 1
  free : ∀ i, s.nbArgs < i → i < s.argv.length → s.argv[i]? = some none
  points : ∀ (i : Nat) (t : List UInt8), ts[i]? = some t → ∃ p, s.argv[i]? = some (some p) ∧
    At s.buffer p t ∧ (rest = [] ∨ p + t.length < pre.length)

section
variable {s : Args} {ts ws : List (List UInt8)} {w pre rest junk : List UInt8}

theorem Parsed.points_eq (h : Parsed s ts pre rest junk) : Points s.argv s.buffer ts := by
  intro i t ht
  obtain ⟨p, hp, hat, -⟩ := h.points i t ht
  unfold argStr
  rw [hp]
  exact hat.strAt_eq

/-- A round that finds a word. -/
theorem argRound_word (h : Parsed s ts pre rest junk) (hs : s.nbArgs < COMMAND_MAX_ARGS)
    (hws : words rest = w :: ws) : ∃ s' pre' rest',
      argRound s = (if s'.nbArgs < COMMAND_MAX_ARGS then .next s' else .leave s') ∧
      s'.nbArgs = s.nbArgs + 1 ∧ s'.buffer.length = s.buffer.length ∧ words rest' = ws ∧
      Parsed s' (ts ++ [w]) pre' rest' junk := by
  obtain ⟨hbuf, hlast, -, h0⟩ := h.standing
  have hne : rest ≠ [] := by
    rintro rfl
    nomatch hws
  rw [if_neg hne] at hlast
  have hrun : (none : Option Nat).or s.last = some pre.length := hlast
  obtain ⟨tok, p, pre', rest', htok, hp, hst, hws', ⟨z, rfl⟩, hat, hend, hlen⟩ :=
    @strtokC_word _ _ _ junk _ _ _ hrun h0 hws
  rw [← hbuf] at htok hlen
  have hstore : storeArg s.argv (s.nbArgs + 1) tok.res =
      .done (s.argv.set (s.nbArgs + 1) (some p)) := by
    rw [storeArg, hp, if_pos]
    rw [h.room]
    omega
  refine ⟨⟨s.nbArgs + 1, s.argv.set (s.nbArgs + 1) (some p), tok.buffer, tok.last⟩, pre ++ z, rest',
    ?_, rfl, hlen, hws', ⟨hst, ?_, ?_, ?_, ?_⟩⟩
  · unfold argRound
    rw [htok]
    dsimp only
    rw [hstore]
    dsimp only
    rw [hp]
    exact if_congr (and_iff_left nofun) rfl rfl
  · rw [List.length_append, h.count]
    rfl
  · exact (List.length_set).trans h.room
  · intro i hi hlt
    dsimp only at hi hlt ⊢
    rw [List.length_set] at hlt
    rw [List.getElem?_set_ne (Nat.ne_of_lt hi)]
    exact h.free i (Nat.lt_of_succ_lt hi) hlt
  · intro i t ht
    dsimp only
    rcases Nat.lt_or_ge i ts.length with hi | hi
    · rw [List.getElem?_append_left hi] at ht
      obtain ⟨q, hq, hqt, hqe⟩ := h.points i t ht
      have hqe := hqe.resolve_left hne
      rw [h.count] at hi
      refine ⟨q, ?_, ?_, .inr ?_⟩
      · rw [List.getElem?_set_ne (Nat.ne_of_gt hi)]
        exact hq
      · rw [hst.eq, List.append_assoc]
        exact (hbuf ▸ hqt).keep hqe
      · rw [List.length_append]
        omega
    · rw [List.getElem?_append_right hi] at ht
      obtain ⟨k, rfl⟩ := Nat.exists_eq_add_of_le hi
      rw [Nat.add_sub_cancel_left] at ht
      cases k with
      | zero =>
        obtain rfl : w = t := Option.some.inj ht
        refine ⟨p, ?_, hat, hend⟩
        rw [Nat.add_zero, h.count]
        exact List.getElem?_set_self (by rw [h.room]; omega)
      | succ k => nomatch ht

/-- A null pointer over a null pointer. -/
theorem storeArg_null {argv : List (Option Nat)} {i : Nat} (h : argv[i]? = some none) :
    storeArg argv i none = .done argv := by
  obtain ⟨hlt, hnone⟩ := List.getElem?_eq_some_iff.mp h
  have hset := List.set_getElem_self hlt
  rw [hnone] at hset
  rw [storeArg, if_pos hlt, hset]

/-- A round that finds none. -/
theorem argRound_none (h : Parsed s ts pre rest junk) (hs : s.nbArgs < COMMAND_MAX_ARGS)
    (hws : words rest = []) :
    argRound s = .leave { s with nbArgs := s.nbArgs + 1 } := by
  obtain ⟨-, hlast, hhead, -⟩ := h.standing
  rw [if_pos (eq_nil_of_words hhead hws)] at hlast
  have htok : strtokC s.buffer s.last none BLANK = .done ⟨none, s.buffer, s.last⟩ := by
    rw [hlast]
    rfl
  have hlt : s.nbArgs + 1 < s.argv.length := by
    rw [h.room]
    omega
  have hstore := storeArg_null (h.free (s.nbArgs + 1) (Nat.lt_succ_self _) hlt)
  unfold argRound
  rw [htok]
  dsimp only
  rw [hstore]
  exact if_neg fun h => h.2 rfl

/-- **The argument loop.** All words fit, and a null pointer follows them; or the count is at its
    end. -/
theorem argLoop_run (k : Nat) : ∀ {s : Args} {ts ws : List (List UInt8)} {pre rest : List UInt8},
    Parsed s ts pre rest junk → s.nbArgs + k = COMMAND_MAX_ARGS → 0 < k → words rest = ws →
    ∃ s', runLoop argRound k s = .done s' ∧ s'.buffer.length = s.buffer.length ∧
      s'.argv.length = COMMAND_MAX_ARGS + 1 ∧
      ((ws.length < k ∧ s'.nbArgs = s.nbArgs + ws.length + 1 ∧ s'.argv[s'.nbArgs]? = some none ∧
        Points s'.argv s'.buffer (ts ++ ws)) ∨
      (k ≤ ws.length ∧ s'.nbArgs = COMMAND_MAX_ARGS ∧
        ∃ us, Points s'.argv s'.buffer (ts ++ us))) := by
  induction k with
  | zero => exact fun _ _ hk _ => absurd hk (Nat.lt_irrefl 0)
  | succ k ih =>
    intro s ts ws pre rest h hk _ hws
    have hs : s.nbArgs < COMMAND_MAX_ARGS := by omega
    cases ws with
    | nil =>
      refine ⟨_, loop_leave (argRound_none h hs hws) k, rfl, h.room, .inl ⟨Nat.succ_pos k, rfl, ?_,
        ?_⟩⟩
      · exact h.free _ (Nat.lt_succ_self _) (by rw [h.room]; dsimp only; omega)
      · rw [List.append_nil]
        exact h.points_eq
    | cons w ws =>
      obtain ⟨s', pre', rest', hround, hnb, hlen, hws', h'⟩ := argRound_word h hs hws
      rcases Nat.eq_zero_or_pos k with rfl | hpos
      · rw [if_neg (by omega)] at hround
        refine ⟨_, loop_leave hround 0, hlen, h'.room, .inr ⟨?_, ?_, [w], h'.points_eq⟩⟩
        · exact Nat.succ_le_succ (Nat.zero_le _)
        · omega
      · rw [if_pos (by omega)] at hround
        obtain ⟨t, hrun, hlen', hroom, hcase⟩ := ih h' (by omega) hpos hws'
        refine ⟨t, (loop_next hround k).trans hrun, hlen'.trans hlen, hroom, ?_⟩
        rw [List.append_assoc] at hcase
        rcases hcase with ⟨hlt, hcount, hnull, hpoints⟩ | ⟨hle, hcount, us, hpoints⟩
        · refine .inl ⟨Nat.succ_lt_succ hlt, ?_, hnull, hpoints⟩
          rw [hcount, hnb, List.length_cons]
          omega
        · rw [List.append_assoc] at hpoints
          exact .inr ⟨Nat.succ_le_succ hle, hcount, _, hpoints⟩

end

/-! ## 7. The commands -/

theorem commands_nonempty : ∀ cmd ∈ commands, cmd.name ≠ [] := by decide

/-- The names are strings, and differ. -/
theorem commands_names : (∀ cmd ∈ commands, 0 ∉ cmd.name) ∧
    (commands.map Command.name).Nodup := by
  decide

theorem getCommand_some {name : List UInt8} {cmd : Command} (h0 : 0 ∉ name)
    (h : getCommand name = some cmd) : cmd ∈ commands ∧ cmd.name = name := by
  have hmem := List.mem_of_find?_eq_some h
  have heq := List.find?_some h
  exact ⟨hmem, (strcmp_eq_zero (holds_cstr _) (commands_names.1 cmd hmem) h0).mp
    (beq_iff_eq.mp heq)⟩

theorem getCommand_none {name : List UInt8} (h0 : 0 ∉ name) (h : getCommand name = none) :
    ∀ cmd ∈ commands, cmd.name ≠ name := by
  intro cmd hmem hname
  have hne := List.find?_eq_none.mp h cmd hmem
  exact hne (beq_iff_eq.mpr
    ((strcmp_eq_zero (holds_cstr _) (commands_names.1 cmd hmem) h0).mpr hname))

/-- The command takes so many arguments. -/
def Accepts (cmd : Command) (k : Nat) : Prop := k = 0 ∨ (cmd.minArgs ≤ k ∧ k ≤ cmd.maxArgs)

/-- The words `ts` ask for `cmd`. -/
def Asks (ts : List (List UInt8)) (cmd : Command) : Prop :=
  cmd ∈ commands ∧ ∃ args, ts = cmd.name :: args ∧ Accepts cmd args.length

/-- The arguments of a call are the words `ts`, a null pointer follows them, and the callback
    reads no argument beyond them. -/
structure Call.Right (c : Call) (ts : List (List UInt8)) : Prop where
  argc : c.argc = ts.length
  argv : ∀ (i : Nat) (t : List UInt8), ts[i]? = some t → c.arg i = .done t
  null : c.argv[c.argc]? = some none
  reads : ∀ rounds, c.run rounds ≠ .fault

section
variable {c : Call}

theorem help_safe (h : c.argc ≠ 1 → ∃ t, c.arg 1 = .done t) : help c ≠ .fault := by
  unfold help
  split
  · exact nofun
  · rename_i hc
    obtain ⟨t, ht⟩ := h hc
    rw [Outcome.bind_done ht]
    split
    · exact nofun
    · exact nofun

theorem memory_safe (h : c.argc ≠ 1 → (∃ t, c.arg 1 = .done t) ∧ ∃ t, c.arg 2 = .done t)
    (rounds : Nat) : memory rounds c ≠ .fault := by
  unfold memory
  split
  · exact nofun
  · rename_i hc
    obtain ⟨⟨t, ht⟩, t', ht'⟩ := h hc
    rw [Outcome.bind_done ht]
    refine Outcome.bind_safe (atoi_safe t rounds 0) fun address => ?_
    rw [Outcome.bind_done ht']
    refine Outcome.bind_safe (atoi_safe t' rounds 0) fun length => ?_
    split
    · exact nofun
    · exact nofun

theorem ls_safe (h : 1 < c.argc → ∃ t, c.arg 1 = .done t) : ls c ≠ .fault := by
  unfold ls
  split
  · rename_i hc
    obtain ⟨t, ht⟩ := h hc
    rw [Outcome.bind_done ht]
    exact nofun
  · exact nofun

theorem printFile_safe (h : c.argc ≠ 1 → ∃ t, c.arg 1 = .done t) : printFile c ≠ .fault := by
  unfold printFile
  split
  · exact nofun
  · rename_i hc
    obtain ⟨t, ht⟩ := h hc
    rw [Outcome.bind_done ht]
    exact nofun

/-- `memory` has two arguments or none. -/
theorem memory_minArgs : ∀ cmd ∈ commands, cmd.callback = .memory → cmd.minArgs = 2 := by decide

/-- The callbacks keep to what they were given. -/
theorem run_safe (hmem : c.cmd ∈ commands) (hargs : Accepts c.cmd (c.argc - 1))
    (hpos : 0 < c.argc) (h : ∀ i < c.argc, ∃ t, c.arg i = .done t) (rounds : Nat) :
    c.run rounds ≠ .fault := by
  unfold Call.run
  cases hcb : c.cmd.callback with
  | help => exact help_safe fun hc => h 1 (by omega)
  | memory =>
    have hmin := memory_minArgs _ hmem hcb
    unfold Accepts at hargs
    exact memory_safe (fun hc => ⟨h 1 (by omega), h 2 (by omega)⟩) rounds
  | ls => exact ls_safe fun hc => h 1 hc
  | printFile => exact printFile_safe fun hc => h 1 (by omega)
  | recvfs => exact nofun
  | stats => exact nofun

end

/-! ## 8. The dispatch -/

section
variable {line junk : List UInt8} {last : Option Nat} {ts : List (List UInt8)}

/-- The first word of the line. -/
theorem strtokC_first (h0 : 0 ∉ line) :
    ∃ tok p name, strtokC (line ++ 0 :: junk) last (some 0) BLANK = .done tok ∧
      tok.res = some p ∧ At tok.buffer p name ∧
      tok.buffer.length = (line ++ 0 :: junk).length ∧
      ((words line = [] ∧ name = []) ∨ ∃ ws pre rest, words line = name :: ws ∧
        words rest = ws ∧ Standing tok.buffer tok.last pre rest junk ∧
        (rest = [] ∨ p + name.length < pre.length)) := by
  cases hws : words line with
  | nil =>
    obtain ⟨p, htok, hat⟩ := @strtokC_none [] _ junk last (some 0) rfl h0 hws
    exact ⟨_, p, [], htok, rfl, hat, rfl, .inl ⟨rfl, rfl⟩⟩
  | cons w ws =>
    obtain ⟨tok, p, pre, rest, htok, hp, hst, hws', -, hat, hend, hlen⟩ :=
      @strtokC_word [] _ _ junk last (some 0) _ rfl h0 hws
    exact ⟨tok, p, w, htok, hp, hat, hlen, .inr ⟨ws, pre, rest, rfl, hws', hst, hend⟩⟩

theorem strAt_of_mem {l : List UInt8} (h : 0 ∈ l) : ∃ w, strAt l = .done w := by
  induction l with
  | nil => nomatch h
  | cons c l ih =>
    rw [strAt]
    split
    · exact ⟨_, rfl⟩
    · rename_i hc
      obtain ⟨w, hw⟩ := ih ((List.mem_cons.mp h).resolve_left (Ne.symm hc))
      exact ⟨_, Outcome.bind_done hw _⟩

theorem At.mem {buffer w : List UInt8} {p : Nat} (h : At buffer p w) : 0 ∈ buffer := by
  obtain ⟨-, rest, h⟩ := h
  refine List.mem_of_mem_drop (i := p) ?_
  rw [← h, List.append_assoc]
  exact List.mem_append_right _ List.mem_cons_self

/-- No command has more arguments than the array. -/
theorem commands_maxArgs : ∀ cmd ∈ commands, cmd.maxArgs < COMMAND_MAX_ARGS - 1 := by decide

/-- **The checks** find out if the command takes so many arguments. -/
theorem checkArgs_eq {cmd : Command} {s : Args} {name : List UInt8} {ws : List (List UInt8)}
    (hmem : cmd ∈ commands)
    (h : (ws.length < COMMAND_MAX_ARGS ∧ s.nbArgs = ws.length + 1 ∧
        s.argv[s.nbArgs]? = some none ∧ Points s.argv s.buffer (name :: ws)) ∨
      (COMMAND_MAX_ARGS ≤ ws.length ∧ s.nbArgs = COMMAND_MAX_ARGS ∧
        ∃ us, Points s.argv s.buffer (name :: us))) :
    ∃ e, checkArgs cmd s = .done e ∧ e.buffer = s.buffer ∧
      ((e.call = none ∧ ¬ Accepts cmd ws.length) ∨
        ∃ c, e.call = some c ∧ c.cmd = cmd ∧ Accepts cmd ws.length ∧ c.Right (name :: ws)) := by
  have hmax := commands_maxArgs cmd hmem
  have hname : argStr s.argv s.buffer 0 = .done name := by
    rcases h with ⟨-, -, -, hp⟩ | ⟨-, -, us, hp⟩
    · exact hp 0 name rfl
    · exact hp 0 name rfl
  unfold checkArgs
  rw [Outcome.bind_done hname, Outcome.bind_done hname]
  split
  · rename_i hmin
    refine ⟨_, rfl, rfl, .inl ⟨rfl, ?_⟩⟩
    unfold Accepts
    omega
  · rename_i hmin
    split
    · rename_i hmore
      refine ⟨_, rfl, rfl, .inl ⟨rfl, ?_⟩⟩
      unfold Accepts
      omega
    · rename_i hless
      rcases h with ⟨hlt, hnb, hnull, hp⟩ | ⟨hle, hnb, -⟩
      · have hacc : Accepts cmd ws.length := by
          unfold Accepts
          omega
        have harg : ∀ (i : Nat) (t : List UInt8), (name :: ws)[i]? = some t →
            Call.arg ⟨cmd, s.nbArgs, s.argv, s.buffer⟩ i = .done t := by
          intro i t ht
          obtain ⟨hi, -⟩ := List.getElem?_eq_some_iff.mp ht
          have hi : i < s.nbArgs := hnb ▸ hi
          exact (if_pos hi).trans (hp i t ht)
        refine ⟨_, Outcome.bind_done (storeArg_null hnull) _, rfl, .inr ⟨_, rfl, rfl, hacc, ?_⟩⟩
        refine ⟨hnb, harg, hnull, run_safe hmem ?_ ?_ ?_⟩
        · rw [hnb]
          exact hacc
        · rw [hnb]
          exact Nat.succ_pos _
        · intro i hi
          rw [hnb] at hi
          exact ⟨_, harg i _ (List.getElem?_eq_getElem hi)⟩
      · omega

/-- **`exec_cmd`** of a line: what it calls is what the words ask for. -/
theorem execCmd_eq (last : Option Nat) (h0 : 0 ∉ line) :
    ∃ e, execCmd (line ++ 0 :: junk) last = .done e ∧
      e.buffer.length = (line ++ 0 :: junk).length ∧
      ((e.call = none ∧ ∀ cmd, ¬ Asks (words line) cmd) ∨
        ∃ c, e.call = some c ∧ Asks (words line) c.cmd ∧ c.Right (words line)) := by
  obtain ⟨tok, p, name, htok, hp, hat, hlen, hcase⟩ :=
    @strtokC_first _ junk last h0
  obtain ⟨text, htext⟩ := strAt_of_mem hat.mem
  unfold execCmd
  rw [Outcome.bind_done htok, hp]
  dsimp only
  rw [Outcome.bind_done hat.strAt_eq]
  cases hcmd : getCommand name with
  | none =>
    refine ⟨_, Outcome.bind_done htext _, hlen, .inl ⟨rfl, ?_⟩⟩
    rintro cmd ⟨hmem, args, hwords, -⟩
    rcases hcase with ⟨hnil, -⟩ | ⟨ws, pre, rest, hws, -⟩
    · nomatch hnil.symm.trans hwords
    · exact getCommand_none hat.1 hcmd cmd hmem (List.cons.inj (hwords.symm.trans hws)).1
  | some cmd =>
    obtain ⟨hmem, hname⟩ := getCommand_some hat.1 hcmd
    rcases hcase with ⟨-, rfl⟩ | ⟨ws, pre, rest, hws, hrest, hst, hend⟩
    · exact absurd hname (commands_nonempty cmd hmem)
    · have hparsed : Parsed ⟨0, some p :: List.replicate COMMAND_MAX_ARGS none, tok.buffer,
          tok.last⟩ [name] pre rest junk := by
        refine ⟨hst, rfl, rfl, ?_, ?_⟩
        · intro i hi hlt
          obtain ⟨i, rfl⟩ := Nat.exists_eq_add_one_of_ne_zero (Nat.ne_of_gt hi)
          exact List.getElem?_replicate_of_lt (Nat.lt_of_succ_lt_succ hlt)
        · intro i t ht
          cases i with
          | zero =>
            obtain rfl : name = t := Option.some.inj ht
            exact ⟨p, rfl, hat, hend⟩
          | succ i => nomatch ht
      obtain ⟨s, hrun, hbuf, -, hargs⟩ :=
        argLoop_run COMMAND_MAX_ARGS hparsed rfl (by decide) hrest
      have hargs : (ws.length < COMMAND_MAX_ARGS ∧ s.nbArgs = ws.length + 1 ∧
          s.argv[s.nbArgs]? = some none ∧ Points s.argv s.buffer (name :: ws)) ∨
          (COMMAND_MAX_ARGS ≤ ws.length ∧ s.nbArgs = COMMAND_MAX_ARGS ∧
            ∃ us, Points s.argv s.buffer (name :: us)) := by
        rwa [Nat.zero_add] at hargs
      obtain ⟨e, he, hebuf, hcall⟩ := checkArgs_eq hmem hargs
      refine ⟨e, (Outcome.bind_done hrun _).trans he, hebuf ▸ hbuf.trans hlen, ?_⟩
      rw [hws, ← hname]
      rcases hcall with ⟨hnone, hno⟩ | ⟨c, hc, rfl, hacc, hright⟩
      · refine .inl ⟨hnone, ?_⟩
        rintro cmd' ⟨hmem', args, hwords, hacc⟩
        obtain ⟨hname', rfl⟩ := List.cons.inj hwords
        obtain rfl := List.inj_on_of_nodup_map commands_names.2 hmem hmem' hname'
        exact hno hacc
      · exact .inr ⟨c, hc, ⟨hmem, ws, rfl, hacc⟩, hname ▸ hright⟩

end

/-- **The dispatch of a line**: `exec_cmd` ends, within the bounds of its arrays. It calls the
    command the words of the line ask for, and none if they ask for none; the words are the
    arguments, and the callback reads no other. -/
theorem exec_cmd_dispatches (line junk : List UInt8) (last : Option Nat) (h0 : 0 ∉ line) :
    ∃ e, execCmd (line ++ 0 :: junk) last = .done e ∧
      (∀ cmd, (∃ c, e.call = some c ∧ c.cmd = cmd) ↔ Asks (words line) cmd) ∧
      ∀ c, e.call = some c → c.Right (words line) := by
  obtain ⟨e, he, -, ⟨hnone, hno⟩ | ⟨c, hc, hasks, hright⟩⟩ := @execCmd_eq _ junk last h0
  · refine ⟨e, he, fun cmd => iff_of_false ?_ (hno cmd), ?_⟩
    · rintro ⟨c, hc, -⟩
      nomatch hnone.symm.trans hc
    · intro c hc
      nomatch hnone.symm.trans hc
  · refine ⟨e, he, fun cmd => ⟨?_, fun h => ⟨c, hc, ?_⟩⟩, ?_⟩
    · rintro ⟨c', hc', rfl⟩
      exact Option.some.inj (hc.symm.trans hc') ▸ hasks
    · obtain ⟨hmem, args, hwords, -⟩ := h
      obtain ⟨hmem', args', hwords', -⟩ := hasks
      exact List.inj_on_of_nodup_map commands_names.2 hmem' hmem
        (List.cons.inj (hwords'.symm.trans hwords)).1
    · intro c' hc'
      exact Option.some.inj (hc.symm.trans hc') ▸ hright

/-- "  ls  a" asks for `ls` with one argument. -/
theorem exec_cmd_ls : ∃ e, execCmd (ascii "  ls  a" ++ 0 :: []) none = .done e ∧
    (∀ cmd, (∃ c, e.call = some c ∧ c.cmd = cmd) ↔ Asks (words (ascii "  ls  a")) cmd) ∧
    ∀ c, e.call = some c → c.Right (words (ascii "  ls  a")) :=
  exec_cmd_dispatches (ascii "  ls  a") [] none (by decide)

end LsePc.Bios
