/-
  File:      LsePc/Host/Script.lean
  Subject:   The scripts of the monitor: `exec_script`, `exec_cmd` (sw/monitor/main.c) and
             `monitor_exec` (monitor.c).

  * `lines`, `strncpy`, `strtok`: the C library, on bytes. What is behind an array is a `fault`;
  * `monitorExec`, `execCmd`, `execScript`: the source. The arguments of a command are what
    `strtok` gives it;
  * `meant`: what a line says, by its words;
  * **result** (`script_runs_iff`): a script runs as written exactly where each of its lines is
    `Sound`.

  The history of readline and what the commands do are not modelled. Every command is taken to
  return; `sysemu` may leave the monitor for good.
-/
import LsePc.Bios.Command
import LsePc.Host.DevList
import Mathlib.Data.List.TakeWhile

namespace LsePc.Host.Script

open LsePc.Lib LsePc.Bios

/-! ## 1. The C library -/

/-- A line feed. -/
def NEWLINE : UInt8 := 0x0A

/-- What `getline` reads, call by call: the bytes up to a line feed and the line feed. -/
def lines : List UInt8 → List (List UInt8)
  | [] => []
  | c :: stream =>
    if c = NEWLINE then [c] :: lines stream
    else
      match lines stream with
      | [] => [[c]]
      | line :: ls => (c :: line) :: ls

/-- At most `n` bytes of a string, filled up with NULs. -/
def strncpy : Nat → List UInt8 → Outcome (List UInt8)
  | 0, _ => .done []
  | _ + 1, [] => .fault
  | n + 1, c :: src =>
    if c = 0 then .done (List.replicate (n + 1) 0)
    else strncpy n src >>= fun dest => .done (c :: dest)

/-- `strspn`, with the delimiter of monitor.c, a space. -/
def skipDelim : List UInt8 → Outcome (List UInt8)
  | [] => .fault
  | c :: s => if c = BLANK then skipDelim s else .done (c :: s)

/-- `strcspn`: a token, and what is left behind the delimiter that ends it. -/
def takeToken : List UInt8 → Outcome (List UInt8 × List UInt8)
  | [] => .fault
  | c :: s =>
    if c = 0 then .done ([], c :: s)
    else if c = BLANK then .done ([], s)
    else takeToken s >>= fun r => .done (c :: r.1, r.2)

/-- `strtok`, from a place in the array on: the token, and the place it remembers. -/
def strtok (s : List UInt8) : Outcome (Option (List UInt8 × List UInt8)) := do
  let s ← skipDelim s
  if s.head? = some 0 then .done none
  else do
    let r ← takeToken s
    .done (some r)

/-! ## 2. The monitor -/

structure Entry where
  name : List UInt8
  cmd : MonitorCmd
  deriving DecidableEq, Repr

def monitorCmds : List Entry :=
  [⟨ascii "help", .help⟩, ⟨ascii "list", .list⟩, ⟨ascii "echo", .echo⟩, ⟨ascii "info", .info⟩,
   ⟨ascii "start", .start⟩, ⟨ascii "stop", .stop⟩, ⟨ascii "break", .brk⟩,
   ⟨ascii "continue", .cont⟩, ⟨ascii "status", .status⟩, ⟨ascii "getregs", .getregs⟩,
   ⟨ascii "sysemu", .sysemu⟩]

/-- The command of a name. -/
def findCmd (name : List UInt8) : Option MonitorCmd :=
  (monitorCmds.find? fun e => e.name == name).map fun e => e.cmd

/-- What a line does: nothing, a call with the arguments that are there for it, or the report
    that there is no such command. -/
inductive Event where
  | skip
  | run (cmd : MonitorCmd) (args : Outcome (List (List UInt8)))
  | notFound (name : List UInt8)
  deriving DecidableEq, Repr

def CMD_SIZE : Nat := 128

/-- `#`. -/
def HASH : UInt8 := 0x23

/-- `while ((s = strtok(NULL, DELIM)))`, at most `n` times. -/
def args : Nat → List UInt8 → Outcome (List (List UInt8))
  | 0, _ => .running
  | n + 1, s => do
    match ← strtok s with
    | none => .done []
    | some (w, s) => do
      let ws ← args n s
      .done (w :: ws)

/-- The array is shorter than `CMD_SIZE + 1`, so that the calls of `strtok` are never too few. -/
def monitorExec (cmd : List UInt8) : Outcome Event := do
  let ccmd ← strncpy CMD_SIZE cmd
  match ← strtok ccmd with
  | none => .fault
  | some (cmdName, s) =>
    if cmdName.head? = some HASH then .done .skip
    else
      match findCmd cmdName with
      | some c => .done (.run c (args (CMD_SIZE + 1) s))
      | none => .done (.notFound cmdName)

def execCmd : List UInt8 → Outcome Event
  | [] => .fault
  | c :: cmd => if c ≠ 0 then monitorExec (c :: cmd) else .done .skip

/-- `int read`. -/
def read (line : List UInt8) : Int := (BitVec.ofNat 32 line.length).toInt

/-- `line[i] = c`. -/
def storeAt (buffer : List UInt8) (i : Int) (c : UInt8) : Outcome (List UInt8) :=
  if i < 0 then .fault else store buffer i.toNat c

/-- The loop of `exec_script`: what each line does. -/
def execLines : List (List UInt8) → Outcome (List Event)
  | [] => .done []
  | line :: ls =>
    if read line = -1 then .done []
    else do
      let buffer ← storeAt (line ++ [0]) (read line - 1) 0
      let e ← execCmd buffer
      let es ← execLines ls
      .done (e :: es)

def execScript (stream : List UInt8) : Outcome (List Event) := execLines (lines stream)

/-! ## 3. What a script says -/

/-- A line without its line feed. -/
def content (line : List UInt8) : List UInt8 :=
  if line.getLast? = some NEWLINE then line.dropLast else line

/-- **What a line says**: the first word is the command, the others are its arguments. -/
def meant (line : List UInt8) : Event :=
  match words line with
  | [] => .skip
  | w :: ws =>
    if w.head? = some HASH then .skip
    else
      match findCmd w with
      | some c => .run c (.done ws)
      | none => .notFound w

/-- What `exec_script` leaves of a line, as a string: the last byte is gone, and what is behind
    a NUL. -/
def left (line : List UInt8) : List UInt8 :=
  contents (line.take (read line - 1).toNat)

/-- Where the first word of a string ends. -/
def firstEnd (c : List UInt8) : Nat :=
  (c.takeWhile (· = BLANK)).length + ((c.dropWhile (· = BLANK)).takeWhile (· ≠ BLANK)).length

/-- **A line that runs as written**, from what it says and what is left of it: a blank line is
    empty; a comment leaves nothing, or a first word that ends in the copy; the first word of
    another line is whole and ends in the copy, and behind a command's name all words are there
    and the copy has room for them. -/
def Sound (line : List UInt8) : Prop :=
  0 < read line ∧
    match words (content line) with
    | [] => left line = []
    | w :: ws =>
      if w.head? = some HASH then
        left line = [] ∨ (words (left line) ≠ [] ∧ firstEnd (left line) < CMD_SIZE)
      else
        (words (left line)).head? = some w ∧ firstEnd (left line) < CMD_SIZE ∧
          (findCmd w ≠ none → words (left line) = w :: ws ∧ (left line).length < CMD_SIZE)

/-! ## 4. Tokens -/

section
variable {c w gap s junk : List UInt8} {n : Nat}

theorem strncpy_short (h0 : 0 ∉ c) (hn : c.length < n) (junk : List UInt8) :
    ∃ pad, strncpy n (c ++ 0 :: junk) = .done (c ++ 0 :: pad) := by
  induction c generalizing n with
  | nil =>
    obtain ⟨n, rfl⟩ := Nat.exists_eq_add_one_of_ne_zero (Nat.ne_of_gt hn)
    exact ⟨List.replicate n 0, rfl⟩
  | cons x c ih =>
    obtain ⟨n, rfl⟩ := Nat.exists_eq_add_one_of_ne_zero (Nat.ne_of_gt (Nat.zero_lt_of_lt hn))
    obtain ⟨hx, hc⟩ := not_or.mp (List.mem_cons.not.mp h0)
    obtain ⟨pad, hpad⟩ := ih hc (Nat.lt_of_succ_lt_succ hn)
    rw [List.cons_append, strncpy, if_neg (Ne.symm hx), Outcome.bind_done hpad]
    exact ⟨pad, rfl⟩

theorem strncpy_long (h0 : 0 ∉ c) (hn : n ≤ c.length) (junk : List UInt8) :
    strncpy n (c ++ 0 :: junk) = .done (c.take n) := by
  induction c generalizing n with
  | nil =>
    obtain rfl := Nat.le_zero.mp hn
    rfl
  | cons x c ih =>
    cases n with
    | zero => rfl
    | succ n =>
      obtain ⟨hx, hc⟩ := not_or.mp (List.mem_cons.not.mp h0)
      rw [List.cons_append, strncpy, if_neg (Ne.symm hx),
        Outcome.bind_done (ih hc (Nat.le_of_succ_le_succ hn))]
      rfl

theorem skipDelim_gap (hgap : ∀ x ∈ gap, x = BLANK) : skipDelim (gap ++ s) = skipDelim s := by
  induction gap with
  | nil => rfl
  | cons x gap ih =>
    obtain ⟨hx, hgap⟩ := List.forall_mem_cons.mp hgap
    rw [List.cons_append, skipDelim, if_pos hx, ih hgap]

theorem strtok_gap (hgap : ∀ x ∈ gap, x = BLANK) : strtok (gap ++ s) = strtok s := by
  unfold strtok
  rw [skipDelim_gap hgap]

theorem takeToken_append (hw : BLANK ∉ w) (h0 : 0 ∉ w) :
    takeToken (w ++ s) = (takeToken s >>= fun r => .done (w ++ r.1, r.2)) := by
  induction w with
  | nil =>
    cases h : takeToken s with
    | running => rw [List.nil_append, h]; rfl
    | fault => rw [List.nil_append, h]; rfl
    | done r => rw [List.nil_append, h]; rfl
  | cons x w ih =>
    obtain ⟨hx, hw⟩ := not_or.mp (List.mem_cons.not.mp hw)
    obtain ⟨hx0, h0⟩ := not_or.mp (List.mem_cons.not.mp h0)
    rw [List.cons_append, takeToken, if_neg (Ne.symm hx0), if_neg (Ne.symm hx), ih hw h0]
    cases takeToken s with
    | running => rfl
    | fault => rfl
    | done r => rfl

/-- The first byte of a token. -/
theorem strtok_word (hw : BLANK ∉ w) (h0 : 0 ∉ w) (hne : w ≠ []) :
    strtok (w ++ s) = (takeToken s >>= fun r => .done (some (w ++ r.1, r.2))) := by
  obtain ⟨x, w', rfl⟩ := List.exists_cons_of_ne_nil hne
  have hx : x ≠ BLANK := fun e => hw (e ▸ List.mem_cons_self)
  have hx0 : (x :: (w' ++ s)).head? ≠ some 0 := fun e =>
    h0 (Option.some.inj e ▸ List.mem_cons_self)
  have hskip : skipDelim (x :: w' ++ s) = .done (x :: (w' ++ s)) := if_neg hx
  have htake := takeToken_append (s := s) hw h0
  rw [List.cons_append] at htake
  unfold strtok
  rw [Outcome.bind_done hskip, if_neg hx0, htake]
  cases takeToken s with
  | running => rfl
  | fault => rfl
  | done r => rfl

theorem strtok_blank (hw : BLANK ∉ w) (h0 : 0 ∉ w) (hne : w ≠ []) :
    strtok (w ++ BLANK :: s) = .done (some (w, s)) := by
  have htake : takeToken (BLANK :: s) = .done ([], s) := rfl
  rw [strtok_word hw h0 hne, Outcome.bind_done htake, List.append_nil]

theorem strtok_nul (hw : BLANK ∉ w) (h0 : 0 ∉ w) (hne : w ≠ []) :
    strtok (w ++ 0 :: s) = .done (some (w, 0 :: s)) := by
  have htake : takeToken (0 :: s) = .done ([], 0 :: s) := rfl
  rw [strtok_word hw h0 hne, Outcome.bind_done htake, List.append_nil]

/-- Without a NUL and without a space, it is read on behind the array. -/
theorem strtok_end (hw : BLANK ∉ w) (h0 : 0 ∉ w) : strtok w = .fault := by
  by_cases hne : w = []
  · rw [hne]
    rfl
  · have h := strtok_word (s := []) hw h0 hne
    rwa [List.append_nil] at h

/-- The arguments of a string. -/
theorem args_string {d : List UInt8} (h0 : 0 ∉ d) (hn : d.length < n) :
    args n (d ++ 0 :: junk) = .done (words d) := by
  induction n generalizing d with
  | zero => exact absurd hn (Nat.not_lt_zero _)
  | succ n ih =>
    cases shape d with
    | blank hgap =>
      have htok : strtok (d ++ 0 :: junk) = .done none := strtok_gap hgap
      rw [args, Outcome.bind_done htok, words_spaces hgap]
    | @last gap w hgap hw hne =>
      have h0w := (not_or.mp (List.mem_append.not.mp h0)).2
      have hend : args n (0 :: junk) = .done [] := by
        have hpos : 0 < w.length := List.length_pos_of_ne_nil hne
        rw [List.length_append] at hn
        exact ih (d := []) List.not_mem_nil (by rw [List.length_nil]; omega)
      rw [List.append_assoc, args, strtok_gap hgap, Outcome.bind_done (strtok_nul hw h0w hne)]
      dsimp only
      rw [Outcome.bind_done hend, words_last hgap hw hne]
    | @more gap w d hgap hw hne =>
      obtain ⟨h0w, h0d⟩ := not_or.mp
        (List.mem_append.not.mp (not_or.mp (List.mem_append.not.mp h0)).2)
      have hrest := ih (d := d) (fun h => h0d (List.mem_cons_of_mem _ h)) (by
        rw [List.length_append, List.length_append, List.length_cons] at hn
        omega)
      rw [List.append_assoc, List.append_assoc, args, strtok_gap hgap, List.cons_append,
        Outcome.bind_done (strtok_blank hw h0w hne)]
      dsimp only
      rw [Outcome.bind_done hrest, words_more hgap hw hne]

/-- The arguments where there is no NUL. -/
theorem args_array {d : List UInt8} (h0 : 0 ∉ d) (hn : d.length < n) : args n d = .fault := by
  induction n generalizing d with
  | zero => exact absurd hn (Nat.not_lt_zero _)
  | succ n ih =>
    cases shape d with
    | blank hgap =>
      have htok := strtok_gap (s := []) hgap
      rw [List.append_nil] at htok
      rw [args, htok]
      rfl
    | @last gap w hgap hw hne =>
      have h0w := (not_or.mp (List.mem_append.not.mp h0)).2
      rw [args, strtok_gap hgap, strtok_end hw h0w]
      rfl
    | @more gap w d hgap hw hne =>
      obtain ⟨h0w, h0d⟩ := not_or.mp
        (List.mem_append.not.mp (not_or.mp (List.mem_append.not.mp h0)).2)
      have hrest := ih (d := d) (fun h => h0d (List.mem_cons_of_mem _ h)) (by
        rw [List.length_append, List.length_append, List.length_cons] at hn
        omega)
      rw [args, strtok_gap hgap, Outcome.bind_done (strtok_blank hw h0w hne)]
      dsimp only
      rw [hrest]
      rfl

/-! ## 5. The copy -/

theorem firstEnd_eq (hgap : ∀ x ∈ gap, x = BLANK) (hw : BLANK ∉ w)
    (hs : s = [] ∨ w ≠ [] ∧ s.head? = some BLANK) :
    firstEnd (gap ++ (w ++ s)) = gap.length + w.length := by
  have hgap' : ∀ x ∈ gap, decide (x = BLANK) = true := fun x hx => decide_eq_true (hgap x hx)
  have hw' : ∀ x ∈ w, decide (x ≠ BLANK) = true :=
    fun x hx => decide_eq_true fun e => hw (e ▸ hx)
  have hstart : (w ++ s).takeWhile (· = BLANK) = [] ∧ (w ++ s).dropWhile (· = BLANK) = w ++ s := by
    cases w with
    | nil =>
      obtain rfl : s = [] := hs.resolve_right fun h => h.1 rfl
      exact ⟨rfl, rfl⟩
    | cons x w =>
      have hx : decide (x = BLANK) = false :=
        decide_eq_false fun e => hw (e ▸ List.mem_cons_self)
      rw [List.cons_append, List.takeWhile_cons, List.dropWhile_cons, hx]
      exact ⟨rfl, rfl⟩
  have hstop : s.takeWhile (· ≠ BLANK) = [] := by
    rcases hs with rfl | ⟨-, hs⟩
    · rfl
    · cases s with
      | nil => rfl
      | cons x s =>
        obtain rfl : x = BLANK := Option.some.inj hs
        rfl
  unfold firstEnd
  rw [List.takeWhile_append_of_pos hgap', List.dropWhile_append_of_pos hgap', hstart.1, hstart.2,
    List.takeWhile_append_of_pos hw', hstop, List.append_nil, List.append_nil]

theorem strtok_take (hgap : ∀ x ∈ gap, x = BLANK) (hw : BLANK ∉ w) (h0 : 0 ∉ w) :
    strtok ((gap ++ w).take n) = .fault := by
  rw [List.take_append, strtok_gap fun x hx => hgap x (List.mem_of_mem_take hx)]
  exact strtok_end (fun h => hw (List.mem_of_mem_take h)) fun h => h0 (List.mem_of_mem_take h)

end

/-- What `monitor_exec` does for a string. -/
def execString (c : List UInt8) : Outcome Event :=
  match words c with
  | [] => .fault
  | w :: ws =>
    if firstEnd c < CMD_SIZE then
      if w.head? = some HASH then .done .skip
      else
        match findCmd w with
        | some cmd => .done (.run cmd (if c.length < CMD_SIZE then .done ws else .fault))
        | none => .done (.notFound w)
    else .fault

section
variable {cmd ccmd c w s : List UInt8} {ws : List (List UInt8)}

theorem monitorExec_fault (hcopy : strncpy CMD_SIZE cmd = .done ccmd)
    (htok : strtok ccmd = .fault) : monitorExec cmd = .fault := by
  unfold monitorExec
  rw [Outcome.bind_done hcopy, htok]
  rfl

theorem monitorExec_none (hcopy : strncpy CMD_SIZE cmd = .done ccmd)
    (htok : strtok ccmd = .done none) : monitorExec cmd = .fault := by
  unfold monitorExec
  rw [Outcome.bind_done hcopy, htok]
  rfl

theorem monitorExec_some (hcopy : strncpy CMD_SIZE cmd = .done ccmd)
    (htok : strtok ccmd = .done (some (w, s))) (hws : words c = w :: ws)
    (hend : firstEnd c < CMD_SIZE)
    (hargs : args (CMD_SIZE + 1) s = if c.length < CMD_SIZE then .done ws else .fault) :
    monitorExec cmd = execString c := by
  unfold monitorExec execString
  rw [Outcome.bind_done hcopy, htok, hws]
  dsimp only
  rw [if_pos hend, ← hargs]
  rfl

theorem execString_nil (hws : words c = []) : execString c = .fault := by
  unfold execString
  rw [hws]

theorem execString_late (hend : ¬ firstEnd c < CMD_SIZE) : execString c = .fault := by
  unfold execString
  split
  · rfl
  · exact if_neg hend

/-- A string that fits in the copy. -/
theorem monitorExec_short (h0 : 0 ∉ c) (hlen : c.length < CMD_SIZE) (junk : List UInt8) :
    monitorExec (c ++ 0 :: junk) = execString c := by
  obtain ⟨pad, hcopy⟩ := strncpy_short h0 hlen junk
  cases shape c with
  | blank hgap =>
    have htok : strtok (c ++ 0 :: pad) = .done none := strtok_gap hgap
    rw [monitorExec_none hcopy htok, execString_nil (words_spaces hgap)]
  | @last gap w hgap hw hne =>
    have h0w := (not_or.mp (List.mem_append.not.mp h0)).2
    have hend := firstEnd_eq hgap hw (.inl rfl : ([] : List UInt8) = [] ∨ _)
    rw [List.append_nil, ← List.length_append] at hend
    refine monitorExec_some (s := 0 :: pad) hcopy ?_ (words_last hgap hw hne) (hend ▸ hlen) ?_
    · rw [List.append_assoc, strtok_gap hgap, strtok_nul hw h0w hne]
    · rw [if_pos hlen]
      exact args_string (d := []) List.not_mem_nil (Nat.zero_lt_succ _)
  | @more gap w d hgap hw hne =>
    obtain ⟨h0w, h0d⟩ := not_or.mp
      (List.mem_append.not.mp (not_or.mp (List.mem_append.not.mp h0)).2)
    have hend := firstEnd_eq hgap hw (.inr ⟨hne, rfl⟩ : BLANK :: d = [] ∨ _)
    have hlen' := hlen
    rw [List.length_append, List.length_append, List.length_cons] at hlen'
    refine monitorExec_some (s := d ++ 0 :: pad) hcopy ?_ (words_more hgap hw hne d)
      (by omega) ?_
    · rw [List.append_assoc, List.append_assoc, strtok_gap hgap, List.cons_append,
        strtok_blank hw h0w hne]
    · rw [if_pos hlen]
      exact args_string (fun h => h0d (List.mem_cons_of_mem _ h)) (by omega)

/-- A string that fills the copy, so that there is no NUL in it. -/
theorem monitorExec_long (h0 : 0 ∉ c) (hlen : ¬ c.length < CMD_SIZE) (junk : List UInt8) :
    monitorExec (c ++ 0 :: junk) = execString c := by
  have hcopy := strncpy_long h0 (Nat.le_of_not_lt hlen) junk
  cases shape c with
  | blank hgap =>
    have htok := strtok_take (w := []) (n := CMD_SIZE) hgap List.not_mem_nil List.not_mem_nil
    rw [List.append_nil] at htok
    rw [monitorExec_fault hcopy htok, execString_nil (words_spaces hgap)]
  | @last gap w hgap hw hne =>
    have h0w := (not_or.mp (List.mem_append.not.mp h0)).2
    have hend := firstEnd_eq hgap hw (.inl rfl : ([] : List UInt8) = [] ∨ _)
    rw [List.append_nil, ← List.length_append] at hend
    rw [monitorExec_fault hcopy (strtok_take hgap hw h0w), execString_late (hend ▸ hlen)]
  | @more gap w d hgap hw hne =>
    obtain ⟨h0w, h0d⟩ := not_or.mp
      (List.mem_append.not.mp (not_or.mp (List.mem_append.not.mp h0)).2)
    have hend := firstEnd_eq hgap hw (.inr ⟨hne, rfl⟩ : BLANK :: d = [] ∨ _)
    have hlen' := hlen
    rw [List.length_append, List.length_append, List.length_cons] at hlen'
    by_cases hlate : gap.length + w.length < CMD_SIZE
    · obtain ⟨k, hk⟩ : ∃ k, CMD_SIZE = gap.length + (w.length + (k + 1)) :=
        ⟨CMD_SIZE - (gap.length + w.length) - 1, by omega⟩
      have htake : (gap ++ (w ++ BLANK :: d)).take CMD_SIZE =
          gap ++ (w ++ BLANK :: d.take k) := by
        rw [hk, List.take_length_add_append, List.take_length_add_append, List.take_succ_cons]
      rw [htake] at hcopy
      refine monitorExec_some (s := d.take k) hcopy ?_ (words_more hgap hw hne d)
        (hend ▸ hlate) ?_
      · rw [strtok_gap hgap, strtok_blank hw h0w hne]
      · rw [if_neg hlen]
        refine args_array (fun h => h0d (List.mem_cons_of_mem _ (List.mem_of_mem_take h))) ?_
        rw [List.length_take]
        omega
    · have htake : (gap ++ (w ++ BLANK :: d)).take CMD_SIZE = (gap ++ w).take CMD_SIZE := by
        rw [← List.append_assoc, List.take_append_of_le_length]
        rw [List.length_append]
        exact Nat.le_of_not_lt hlate
      rw [htake] at hcopy
      rw [monitorExec_fault hcopy (strtok_take hgap hw h0w), execString_late (hend ▸ hlate)]

/-- **Only the string in the line matters**, and of it the words. -/
theorem monitorExec_eq (h0 : 0 ∉ c) (junk : List UInt8) :
    monitorExec (c ++ 0 :: junk) = execString c := by
  by_cases hlen : c.length < CMD_SIZE
  · exact monitorExec_short h0 hlen junk
  · exact monitorExec_long h0 hlen junk

end

/-! ## 6. One line -/

section
variable {c l w w' gap : List UInt8} {ws ws' : List (List UInt8)} {line : List UInt8}

theorem execCmd_eq (h0 : 0 ∉ c) (junk : List UInt8) :
    execCmd (c ++ 0 :: junk) = if c = [] then .done .skip else execString c := by
  cases c with
  | nil => rfl
  | cons x c =>
    have hx : x ≠ 0 := fun e => h0 (e ▸ List.mem_cons_self)
    rw [if_neg (List.cons_ne_nil x c), ← monitorExec_eq h0 junk]
    exact if_pos hx

/-- The number of bytes, as an `int`. -/
theorem read_le (line : List UInt8) : read line ≤ line.length := by
  have hmod : line.length % 2 ^ 32 ≤ line.length := Nat.mod_le _ _
  unfold read
  rw [BitVec.toInt_eq_toNat_cond, BitVec.toNat_ofNat]
  split
  · omega
  · omega

theorem left_nonzero (line : List UInt8) : 0 ∉ left line := by
  intro h
  have h0 := List.mem_takeWhile_imp h
  exact absurd rfl (of_decide_eq_true h0)

/-- What is left is a part of the line. -/
theorem left_prefix (h : 0 < read line) : left line <+: content line := by
  have hle := read_le line
  have hcut : line.take (read line - 1).toNat <+: line.dropLast := by
    rw [List.dropLast_eq_take]
    exact List.take_prefix_take_left (by omega)
  refine (List.takeWhile_prefix _).trans ?_
  unfold content
  split
  · exact hcut
  · exact hcut.trans (List.dropLast_prefix line)

/-- The line in the buffer, with its NUL. -/
theorem storeAt_eq (h : 0 < read line) :
    ∃ junk, storeAt (line ++ [0]) (read line - 1) 0 = .done (left line ++ 0 :: junk) := by
  have hle := read_le line
  have hlt : (read line - 1).toNat < (line ++ [0]).length := by
    rw [List.length_append, List.length_singleton]
    omega
  have htake : (line ++ [0]).take (read line - 1).toNat = line.take (read line - 1).toNat :=
    List.take_append_of_le_length (by omega)
  unfold storeAt store
  rw [if_neg (by omega), if_pos hlt, List.set_eq_take_append_cons_drop, if_pos hlt, htake]
  have hsplit : left line ++ (line.take (read line - 1).toNat).dropWhile (· ≠ 0) =
      line.take (read line - 1).toNat := List.takeWhile_append_dropWhile
  rw [← hsplit]
  cases hrest : (line.take (read line - 1).toNat).dropWhile (· ≠ 0) with
  | nil => exact ⟨_, by rw [List.append_nil]⟩
  | cons x rest =>
    have hx : x = 0 := by
      have hhead := List.head?_dropWhile_not (fun x : UInt8 => decide (x ≠ 0))
        (line.take (read line - 1).toNat)
      rw [hrest] at hhead
      exact not_not.mp (of_decide_eq_false hhead)
    subst hx
    exact ⟨_, by rw [List.append_assoc, List.cons_append]⟩

/-- The first byte that is no space is the first one of the first word. -/
theorem words_head {x : UInt8} (hgap : ∀ y ∈ gap, y = BLANK) (hx : x ≠ BLANK) (r : List UInt8) :
    ∃ w ws, words (gap ++ x :: r) = w :: ws ∧ w.head? = some x := by
  rw [words_gap hgap]
  obtain ⟨w, hw, hr⟩ := exists_word (x :: r)
  have hne : w ≠ [] := by
    rintro rfl
    rcases hr with hr | ⟨t, hr⟩
    · exact List.cons_ne_nil x r hr
    · exact hx (List.cons.inj hr).1
  rcases hr with hr | ⟨t, hr⟩
  · refine ⟨w, [], ?_, ?_⟩
    · rw [hr, words_word hw hne]
    · rw [← hr, List.head?_cons]
  · refine ⟨w, words t, ?_, ?_⟩
    · rw [hr, words_word_blank hw hne]
    · rw [← List.head?_append_of_ne_nil w hne, ← hr, List.head?_cons]

/-- The first word of a part of the line starts as the one of the line does. -/
theorem words_prefix (h : c <+: l) (hws : words c = w' :: ws') :
    ∃ w ws, words l = w :: ws ∧ w.head? = w'.head? := by
  obtain ⟨rest, rfl⟩ := h
  obtain ⟨gap, x, r, hc, hgap, hx⟩ : ∃ gap x r, c = gap ++ x :: r ∧ (∀ y ∈ gap, y = BLANK) ∧
      x ≠ BLANK := by
    obtain ⟨gap, t, hc, hgap, ht⟩ := exists_gap c
    cases t with
    | nil =>
      rw [hc, List.append_nil, words_spaces hgap] at hws
      nomatch hws
    | cons x r => exact ⟨gap, x, r, hc, hgap, fun e => ht (congrArg some e)⟩
  obtain ⟨v, vs, hv, hhead⟩ := words_head hgap hx r
  obtain ⟨w, ws, hw, hhead'⟩ := words_head hgap hx (r ++ rest)
  rw [hc, hv] at hws
  obtain ⟨rfl, -⟩ := List.cons.inj hws
  refine ⟨w, ws, ?_, hhead'.trans hhead.symm⟩
  rw [hc, List.append_assoc]
  exact hw

theorem monitorCmds_inj : ∀ e ∈ monitorCmds, ∀ e' ∈ monitorCmds, e.cmd = e'.cmd →
    e.name = e'.name := by decide

theorem findCmd_inj {cmd : MonitorCmd} (h : findCmd w = some cmd) (h' : findCmd w' = some cmd) :
    w = w' := by
  obtain ⟨e, he, rfl⟩ := Option.map_eq_some_iff.mp h
  obtain ⟨e', he', hcmd⟩ := Option.map_eq_some_iff.mp h'
  have hname : e.name = w := by
    have hbeq := List.find?_some he
    exact beq_iff_eq.mp hbeq
  have hname' : e'.name = w' := by
    have hbeq := List.find?_some he'
    exact beq_iff_eq.mp hbeq
  have hinj := monitorCmds_inj e (List.mem_of_find?_eq_some he) e' (List.mem_of_find?_eq_some he')
    hcmd.symm
  exact hname.symm.trans (hinj.trans hname')

/-- What the code does with what is left of a line. -/
def execLeft (c : List UInt8) : Outcome Event := if c = [] then .done .skip else execString c

/-- A comment. -/
theorem execLeft_comment (hpre : c <+: l) (hws : words l = w :: ws)
    (hw : w.head? = some HASH) :
    execLeft c = .done .skip ↔ c = [] ∨ (words c ≠ [] ∧ firstEnd c < CMD_SIZE) := by
  unfold execLeft
  by_cases hnil : c = []
  · exact iff_of_true (if_pos hnil) (.inl hnil)
  · rw [if_neg hnil]
    unfold execString
    cases hc : words c with
    | nil => exact iff_of_false nofun fun h => h.elim hnil fun h => h.1 rfl
    | cons w' ws' =>
      obtain ⟨v, vs, hv, hhead⟩ := words_prefix hpre hc
      obtain ⟨rfl, -⟩ := List.cons.inj (hws.symm.trans hv)
      dsimp only
      rw [← hhead, if_pos hw]
      split
      · rename_i hend
        exact iff_of_true rfl (.inr ⟨nofun, hend⟩)
      · rename_i hend
        exact iff_of_false nofun fun h => h.elim hnil fun h => hend h.2

/-- What is reported or called for another word than `w` is not what `w` says. -/
theorem called_ne (hne : w' ≠ w) (args args' : Outcome (List (List UInt8))) :
    (match findCmd w' with
      | some cmd => Outcome.done (Event.run cmd args)
      | none => .done (.notFound w')) ≠
    .done (match findCmd w with
      | some cmd => .run cmd args'
      | none => .notFound w) := by
  intro h
  cases hcmd' : findCmd w' with
  | some cmd' =>
    cases hcmd : findCmd w with
    | some cmd =>
      rw [hcmd', hcmd] at h
      obtain ⟨rfl, -⟩ := Event.run.inj (Outcome.done.inj h)
      exact hne (findCmd_inj hcmd' hcmd)
    | none =>
      rw [hcmd', hcmd] at h
      nomatch h
  | none =>
    cases hcmd : findCmd w with
    | some cmd =>
      rw [hcmd', hcmd] at h
      nomatch h
    | none =>
      rw [hcmd', hcmd] at h
      exact hne (Event.notFound.inj (Outcome.done.inj h))

/-- A command, or a name that is none. -/
theorem execLeft_other (hpre : c <+: l) (hws : words l = w :: ws)
    (hw : w.head? ≠ some HASH) :
    execLeft c = .done (match findCmd w with
        | some cmd => .run cmd (.done ws)
        | none => .notFound w) ↔
      (words c).head? = some w ∧ firstEnd c < CMD_SIZE ∧
        (findCmd w ≠ none → words c = w :: ws ∧ c.length < CMD_SIZE) := by
  unfold execLeft
  by_cases hnil : c = []
  · subst hnil
    refine iff_of_false (fun h => ?_) nofun
    rw [if_pos rfl] at h
    cases hcmd : findCmd w with
    | some cmd =>
      rw [hcmd] at h
      nomatch h
    | none =>
      rw [hcmd] at h
      nomatch h
  rw [if_neg hnil]
  unfold execString
  cases hc : words c with
  | nil => exact iff_of_false nofun nofun
  | cons w' ws' =>
    obtain ⟨v, vs, hv, hhead⟩ := words_prefix hpre hc
    obtain ⟨rfl, -⟩ := List.cons.inj (hws.symm.trans hv)
    rw [List.head?_cons, Option.some.injEq]
    dsimp only
    by_cases hend : firstEnd c < CMD_SIZE
    · rw [if_pos hend, if_neg (hhead ▸ hw)]
      by_cases heq : w' = w
      · subst heq
        cases hcmd : findCmd w' with
        | none => exact iff_of_true rfl ⟨rfl, hend, fun h => absurd rfl h⟩
        | some cmd =>
          dsimp only
          by_cases hlen : c.length < CMD_SIZE
          · rw [if_pos hlen]
            constructor
            · intro h
              obtain ⟨-, h⟩ := Event.run.inj (Outcome.done.inj h)
              exact ⟨rfl, hend, fun _ => ⟨Outcome.done.inj h ▸ rfl, hlen⟩⟩
            · rintro ⟨-, -, h⟩
              obtain ⟨-, rfl⟩ := List.cons.inj (h nofun).1
              rfl
          · rw [if_neg hlen]
            refine iff_of_false (fun h => ?_) fun h => hlen (h.2.2 nofun).2
            nomatch (Event.run.inj (Outcome.done.inj h)).2
      · exact iff_of_false (called_ne heq _ _) fun h => heq h.1
    · rw [if_neg hend]
      exact iff_of_false nofun fun h => hend h.2.1

theorem execLeft_iff (h : 0 < read line) :
    execLeft (left line) = .done (meant (content line)) ↔ Sound line := by
  have hpre := left_prefix h
  unfold meant Sound
  rw [and_iff_right h]
  cases hws : words (content line) with
  | nil =>
    have hleft : words (left line) = [] := by
      refine Classical.byContradiction fun hne => ?_
      obtain ⟨w', ws', hc⟩ := List.exists_cons_of_ne_nil hne
      obtain ⟨v, vs, hv, -⟩ := words_prefix hpre hc
      nomatch hws.symm.trans hv
    dsimp only
    unfold execLeft
    rw [execString_nil hleft]
    constructor
    · intro hdone
      refine Classical.byContradiction fun hne => ?_
      rw [if_neg hne] at hdone
      nomatch hdone
    · exact fun hnil => if_pos hnil
  | cons w ws =>
    dsimp only
    by_cases hw : w.head? = some HASH
    · rw [if_pos hw, if_pos hw]
      exact execLeft_comment hpre hws hw
    · rw [if_neg hw, if_neg hw]
      exact execLeft_other hpre hws hw

/-- **A line runs as written exactly where it is sound.** -/
theorem execLine_iff (line : List UInt8) :
    (storeAt (line ++ [0]) (read line - 1) 0 >>= execCmd) = .done (meant (content line)) ↔
      Sound line := by
  by_cases h : 0 < read line
  · obtain ⟨junk, hstore⟩ := storeAt_eq h
    rw [Outcome.bind_done hstore, execCmd_eq (left_nonzero line)]
    exact execLeft_iff h
  · have hstore : storeAt (line ++ [0]) (read line - 1) 0 = .fault := if_pos (by omega)
    rw [hstore]
    exact iff_of_false nofun fun hs => h hs.1

end

/-! ## 7. Scripts -/

theorem execLines_iff (ls : List (List UInt8)) :
    execLines ls = .done (ls.map fun line => meant (content line)) ↔ ∀ line ∈ ls, Sound line := by
  induction ls with
  | nil => exact iff_of_true rfl nofun
  | cons line ls ih =>
    rw [List.forall_mem_cons, ← ih, ← execLine_iff line, List.map_cons, execLines]
    by_cases hread : read line = -1
    · have hstore : storeAt (line ++ [0]) (read line - 1) 0 = .fault := if_pos (by omega)
      rw [if_pos hread, hstore]
      exact iff_of_false nofun fun h => nomatch h.1
    · rw [if_neg hread]
      constructor
      · intro hdone
        obtain ⟨buffer, hstore, hdone⟩ := Outcome.of_bind_done hdone
        obtain ⟨e, he, hdone⟩ := Outcome.of_bind_done hdone
        obtain ⟨es, hes, hdone⟩ := Outcome.of_bind_done hdone
        obtain ⟨rfl, rfl⟩ := List.cons.inj (Outcome.done.inj hdone)
        exact ⟨(Outcome.bind_done hstore _).trans he, hes⟩
      · rintro ⟨hline, hes⟩
        obtain ⟨buffer, hstore, he⟩ := Outcome.of_bind_done hline
        rw [Outcome.bind_done hstore, Outcome.bind_done he, Outcome.bind_done hes]

/-- **A script runs as written** exactly where each of its lines does. -/
theorem script_runs_iff (stream : List UInt8) :
    execScript stream = .done ((lines stream).map fun line => meant (content line)) ↔
      ∀ line ∈ lines stream, Sound line :=
  execLines_iff (lines stream)

/-- Without its line feed `info` is another name; a line of one space ends in a null pointer; and
    the arguments of a long line are read behind the copy. -/
theorem script_fails :
    execScript (ascii "info") = .done [.notFound (ascii "inf")] ∧
    execScript (ascii " \n") = .fault ∧
    execScript (ascii "echo " ++ List.replicate 123 0x61 ++ [NEWLINE]) =
      .done [.run .echo .fault] ∧
    execScript (ascii "info") ≠
      .done ((lines (ascii "info")).map fun line => meant (content line)) := by
  refine ⟨by decide +kernel, by decide +kernel, by decide +kernel, by decide +kernel⟩

theorem firstEnd_le (c : List UInt8) : firstEnd c ≤ c.length := by
  have hsplit : (c.takeWhile (· = BLANK)).length + (c.dropWhile (· = BLANK)).length = c.length := by
    rw [← List.length_append, List.takeWhile_append_dropWhile]
  have hle := (List.takeWhile_prefix (p := fun x => decide (x ≠ BLANK))
    (l := c.dropWhile (· = BLANK))).length_le
  unfold firstEnd
  omega

/-- An ordinary line: it has its line feed and no NUL, is shorter than the copy, and is empty or
    not blank. -/
theorem sound_plain {l : List UInt8} (h0 : 0 ∉ l) (hlen : l.length < CMD_SIZE)
    (hblank : words l = [] → l = []) : Sound (l ++ [NEWLINE]) := by
  have hread : read (l ++ [NEWLINE]) = l.length + 1 := by
    unfold CMD_SIZE at hlen
    unfold read
    rw [List.length_append, List.length_singleton, BitVec.toInt_eq_toNat_cond, BitVec.toNat_ofNat,
      Nat.mod_eq_of_lt (by omega), if_pos (by omega)]
    rfl
  have hleft : left (l ++ [NEWLINE]) = l := by
    have hpos : (read (l ++ [NEWLINE]) - 1).toNat = l.length := by omega
    unfold left contents
    rw [hpos, List.take_left]
    exact List.takeWhile_eq_self_iff.mpr fun x hx => decide_eq_true fun e => h0 (e ▸ hx)
  have hcontent : content (l ++ [NEWLINE]) = l := by
    unfold content
    rw [if_pos List.getLast?_concat, List.dropLast_concat]
  have hend : firstEnd l < CMD_SIZE := Nat.lt_of_le_of_lt (firstEnd_le l) hlen
  unfold Sound
  rw [hcontent, hleft, hread]
  refine ⟨by omega, ?_⟩
  cases hws : words l with
  | nil => exact hblank hws
  | cons w ws =>
    dsimp only
    split
    · exact .inr ⟨nofun, hend⟩
    · exact ⟨rfl, hend, fun _ => ⟨rfl, hlen⟩⟩

end LsePc.Host.Script
