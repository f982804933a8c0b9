/-
  File:      LsePc/Bios/Lookup.lean
  Subject:   `fs_find` and the names that have been received.

  A field of a block holds 22 characters of a name, and `strncmp` reads no more of it.

  * `Names`: a record beside the run, of the bytes of the names on COM2;
  * `Directory`: the entries are the files of the record, the newest first, and their fields
    hold what fits of their names;
  * `step_logged`: so it stays, step by step;
  * **result** (`find_received`): `fs_find` returns the newest file whose name agrees with the
    path as far as the field goes; `find_other`: it may have another name.
-/
import LsePc.Bios.Strings
import LsePc.Bios.Walks
import Mathlib.Data.List.Find
import Mathlib.Data.List.GetD

namespace LsePc.Bios

open LsePc.Lib

/-! ## 1. What has been received -/

/-- The bytes of the name that is received, and the files whose name has come, the newest
    first, each with its block. A file is in the record from the last byte of its name on. -/
structure Names where
  cur : List UInt8
  files : List (Nat × List UInt8)

def Wait.nameBytes (cur : List UInt8) (c : UInt8) : Wait → List UInt8
  | .name _ => cur ++ [c]
  | .magic0 | .magic1 | .header _ | .data .. => []

/-- A file has come when the directory has another first entry. -/
def Names.after (g : Names) : Sys → Input → Sys → Names
  | .recv _ w s, .com2 c, .recv _ _ t =>
    { cur := w.nameBytes g.cur c
      files := if t.next 0 = s.next 0 then g.files
        else (t.next 0, w.nameBytes g.cur c) :: g.files }
  | _, _, _ => g

section
variable {g : Names} {buff buff' : Nat} {w w' : Wait} {s t : FsState} {c : UInt8}

theorem Names.after_old (h : t.next 0 = s.next 0) :
    (g.after (.recv buff w s) (.com2 c) (.recv buff' w' t)).files = g.files := if_pos h

theorem Names.after_new (h : t.next 0 ≠ s.next 0) :
    (g.after (.recv buff w s) (.com2 c) (.recv buff' w' t)).files =
      (t.next 0, w.nameBytes g.cur c) :: g.files := if_neg h

end

/-- The runs with their record. -/
def InitNames (p : Sys × Names) : Prop := Init p.1 ∧ p.2 = { cur := [], files := [] }

def StepNames (p : Sys × Names) (i : Input) (q : Sys × Names) : Prop :=
  Step p.1 i q.1 ∧ q.2 = p.2.after p.1 i q.1

/-- The name that some bytes are, up to their first NUL. -/
def nameOf (l : List UInt8) : List UInt8 := l.takeWhile fun c => c ≠ 0

theorem zero_notMem_nameOf (l : List UInt8) : 0 ∉ nameOf l := by
  intro hm
  have hne := List.all_eq_true.mp List.all_takeWhile 0 hm
  simp at hne

/-- Bytes with a NUL, read from their start. -/
theorem cstr_nameOf {l : List UInt8} (h0 : 0 ∈ l) {i : Nat} (hi : i ≤ (nameOf l).length) :
    i < l.length ∧ cstr l i = cstr (nameOf l) i := by
  induction l generalizing i with
  | nil => cases h0
  | cons c l ih =>
    by_cases hc : c = 0
    · subst hc
      obtain rfl : i = 0 := Nat.le_zero.mp hi
      exact ⟨Nat.zero_lt_succ _, rfl⟩
    · have hname : nameOf (c :: l) = c :: nameOf l :=
        List.takeWhile_cons_of_pos (decide_eq_true hc)
      rw [hname] at hi ⊢
      cases i with
      | zero => exact ⟨Nat.zero_lt_succ _, rfl⟩
      | succ i =>
        have h0' : 0 ∈ l := (List.mem_cons.mp h0).resolve_left (Ne.symm hc)
        obtain ⟨hlt, he⟩ := ih h0' (Nat.le_of_succ_le_succ hi)
        exact ⟨Nat.succ_lt_succ hlt, he⟩

/-! ## 2. The directory -/

/-- The entries are the files of the record. A name without a NUL is not a name. -/
structure Directory (s : FsState) (files : List (Nat × List UInt8)) : Prop where
  entries : Chain 0 s.dnext (s.next 0) (files.map Prod.fst)
  names : ∀ e ∈ files, 0 ∈ e.2 → HoldsTo FS_NAME_SIZE (s.fs e.1).name (nameOf e.2)

/-- The bytes `cur` of a name are where `filename` points to. -/
def NameIn (buff : Nat) (s : FsState) (cur : List UInt8) : Prop :=
  ∀ j < cur.length, s.mem buff (cpioHdrSize + j) = cstr cur j

def NameAt (buff : Nat) (s : FsState) (cur : List UInt8) : Wait → Prop
  | .name k => cur.length = k ∧ k < cNamesize (s.mem buff) ∧ NameIn buff s cur
  | .magic0 | .magic1 | .header _ | .data .. => True

/-- The record is right. -/
def Logged : Sys × Names → Prop
  | (.idle s, g) => Directory s g.files
  | (.recv buff w s, g) => Directory s g.files ∧ NameAt buff s g.cur w
  | (.panic _, _) => True

section
variable {s s' : FsState} {files : List (Nat × List UInt8)} {b buff : Nat} {cur : List UInt8}
  {w : Wait} {c : UInt8}

theorem Directory.of_links (h : Directory s files) (hd : s'.dnext = s.dnext)
    (hn : s'.next 0 = s.next 0) (hname : ∀ j, (s'.fs j).name = (s.fs j).name) :
    Directory s' files := by
  refine ⟨?_, fun e he h0 => ?_⟩
  · rw [hd, hn]
    exact h.entries
  · rw [hname]
    exact h.names e he h0

/-- The entries of the directory are below the free blocks. -/
theorem Ordered.le_root (h : Ordered s) {b : Nat} {l : List Nat} (hl : Chain 0 s.dnext b l)
    (hb : b < FS_NB_BLOCKS) : ∀ x ∈ l, x ≤ b := by
  induction hl with
  | nil => exact nofun
  | @cons b l hb0 _ ih =>
    intro x hx
    have hdown := h.dnext b (Nat.pos_of_ne_zero hb0) hb
    rcases List.mem_cons.mp hx with rfl | hx
    · exact Nat.le_refl x
    · exact Nat.le_trans (ih (Nat.lt_trans hdown hb) x hx) (Nat.le_of_lt hdown)

/-- **A new entry.** -/
theorem Directory.add (h : Directory s files) (ho : Ordered s) (hb : s.firstFreeBlock = b)
    (h0 : b ≠ 0) (hn : s'.next 0 = b) (hd : s'.dnext = Function.update s.dnext b (s.next 0))
    (hname : ∀ j, j ≠ b → (s'.fs j).name = (s.fs j).name)
    (hcur : 0 ∈ cur → HoldsTo FS_NAME_SIZE (s'.fs b).name (nameOf cur)) :
    Directory s' ((b, cur) :: files) := by
  obtain ⟨-, -, hroot, -⟩ := ho.pop hb h0
  have hnot : ∀ e ∈ files, e.1 ≠ b := by
    intro e he
    have hle := ho.le_root h.entries ho.root e.1 (List.mem_map_of_mem he)
    exact Nat.ne_of_lt (Nat.lt_of_le_of_lt hle hroot)
  refine ⟨?_, fun e he hz => ?_⟩
  · rw [hn, hd]
    refine .cons h0 ?_
    rw [Function.update_self]
    refine h.entries.update fun hm => ?_
    obtain ⟨e, he, heb⟩ := List.mem_map.mp hm
    exact hnot e he heb
  · rcases List.mem_cons.mp he with rfl | he
    · exact hcur hz
    · rw [hname e.1 (hnot e he)]
      exact h.names e he hz

/-- **The field of a name** after the `strncpy` of `fs_recv_cpio`. -/
theorem openFile_name (h : NameIn buff s cur) (hlen : cur.length ≤ cNamesize (s.mem buff))
    (h0 : 0 ∈ cur) : HoldsTo FS_NAME_SIZE ((s.openFile buff b).fs b).name (nameOf cur) := by
  have hholds : Holds (fun i => s.mem buff (cpioHdrSize + i)) (nameOf cur) := by
    intro i hi
    obtain ⟨hlt, he⟩ := cstr_nameOf h0 hi
    exact (h i hlt).trans he
  obtain ⟨dest, hfield⟩ : ∃ dest, ((s.openFile buff b).fs b).name = strncpy dest
      (fun i => s.mem buff (cpioHdrSize + i)) (min FS_NAME_SIZE (cNamesize (s.mem buff))) := by
    unfold FsState.openFile
    dsimp only
    rw [FsState.fs_setBlock]
    exact ⟨_, rfl⟩
  intro i hi hle
  rw [hfield]
  refine strncpy_holdsTo hholds (zero_notMem_nameOf cur) _ i (Nat.lt_min.mpr ⟨hi, ?_⟩) hle
  exact Nat.lt_of_lt_of_le (cstr_nameOf h0 hle).1 hlen

theorem openFile_name_ne {j : Nat} (hj : j ≠ b) :
    ((s.openFile buff b).fs j).name = (s.fs j).name := by
  unfold FsState.openFile
  dsimp only
  rw [FsState.fs_setBlock_ne hj, FsState.field_setBlock (p := FsBlock.name),
    FsState.field_setBlock (p := FsBlock.name)]
  all_goals exact fun _ => rfl

/-- A file that is complete. -/
theorem Directory.closeFile (h : Directory s files) (hb : b ≠ 0) :
    (s.closeFile b).next 0 = s.next 0 ∧ Directory (s.closeFile b) files := by
  have hroot : (s.closeFile b).next 0 = s.next 0 := by
    rw [FsState.closeFile_next, Function.update_of_ne hb.symm]
  refine ⟨hroot, h.of_links FsState.closeFile_dnext hroot fun j => ?_⟩
  refine FsState.field_setBlock (p := FsBlock.name) ?_ j
  exact fun _ => rfl

/-- What the loop over the data leaves of the directory. -/
theorem chunk_logged {n cur : Nat} {y : Sys} (h : Directory s files) (hb : b ≠ 0)
    (hc : Chunk buff b n cur s y) :
    (∃ msg, y = .panic msg) ∨ ∃ w t, y = .recv buff w t ∧ t.next 0 = s.next 0 ∧
      Directory t files ∧ ∀ cur', NameAt buff t cur' w := by
  cases hc with
  | panic => exact .inl ⟨_, rfl⟩
  | @data f frames _ _ =>
    have hroot := congrFun (@FsState.giveFrame_next s b f (min PAGE_SIZE (n - cur)) frames) 0
    refine .inr ⟨_, _, rfl, hroot, h.of_links FsState.giveFrame_dnext hroot fun j => ?_,
      fun _ => trivial⟩
    refine FsState.field_setBlock (p := FsBlock.name) ?_ j
    exact fun _ => rfl
  | done _ =>
    obtain ⟨hroot, hdir⟩ := h.closeFile hb
    exact .inr ⟨_, _, rfl, hroot, hdir, fun _ => trivial⟩

/-- The name is behind the header. -/
theorem cNamesize_update (m : Mem) (i : Nat) (c : UInt8) :
    cNamesize (Function.update m (cpioHdrSize + i) c) = cNamesize m := by
  unfold cNamesize u16At cpioHdrSize
  rw [Function.update_of_ne (by omega), Function.update_of_ne (by omega)]

/-- **A byte before the data**: the record has what there is of the name. -/
theorem name_byte (h : NameAt buff s cur w) (hw : w.inData = false) :
    (w.nameBytes cur c).length = w.named ∧
      (w.nameBytes cur c).length ≤ cNamesize ((s.poke buff w.offset c).mem buff) ∧
      NameIn buff (s.poke buff w.offset c) (w.nameBytes cur c) := by
  cases w with
  | data b n cur i => cases hw
  | magic0 => exact ⟨rfl, Nat.zero_le _, nofun⟩
  | magic1 => exact ⟨rfl, Nat.zero_le _, nofun⟩
  | header k => exact ⟨rfl, Nat.zero_le _, nofun⟩
  | name k =>
    obtain ⟨rfl, hk, hin⟩ := h
    have hmem : (s.poke buff (cpioHdrSize + cur.length) c).mem buff =
        Function.update (s.mem buff) (cpioHdrSize + cur.length) c := Function.update_self ..
    have hlen : (cur ++ [c]).length = cur.length + 1 := List.length_append
    unfold Wait.nameBytes Wait.offset NameIn
    dsimp only
    rw [hmem, hlen, cNamesize_update]
    refine ⟨rfl, hk, fun j hj => ?_⟩
    rcases Nat.lt_succ_iff_lt_or_eq.mp hj with hj | rfl
    · rw [Function.update_of_ne (by omega), hin j hj]
      exact (List.getD_append _ _ _ _ hj).symm
    · rw [Function.update_self]
      unfold cstr
      rw [List.getD_append_right _ _ _ _ (Nat.le_refl _), Nat.sub_self]
      rfl

/-- **A byte of a session.** -/
theorem turn_logged {g : Names} {y : Sys} (h : Logged (.recv buff w s, g))
    (ho : (Sys.recv buff w s).Ordered) (ht : Turn buff s c w y) :
    Logged (y, g.after (.recv buff w s) (.com2 c) y) := by
  obtain ⟨hdir, hname⟩ := h
  have hs := ordered_recv ho
  cases ht with
  | panic => trivial
  | @head w w' hw _ _ hk =>
    obtain ⟨hlen, -, hin⟩ := name_byte (c := c) hname hw
    refine ⟨?_, ?_⟩
    · rw [Names.after_old (s := s) (t := s.poke buff w.offset c) rfl]
      exact hdir.of_links rfl rfl fun _ => rfl
    · cases w' with
      | name k =>
        obtain ⟨rfl, hlt⟩ := hk k rfl
        exact ⟨hlen, hlt, hin⟩
      | magic0 => trivial
      | magic1 => trivial
      | header k => trivial
      | data b n cur i => trivial
  | trailer _ => exact hdir.of_links rfl rfl fun _ => rfl
  | @file w b y hw hb h0 hc =>
    obtain ⟨-, hle, hin⟩ := name_byte (c := c) hname hw
    have hs' : Ordered (s.poke buff w.offset c) := hs.of_links rfl rfl rfl
    have hdir' : Directory (s.poke buff w.offset c) g.files := hdir.of_links rfl rfl fun _ => rfl
    have hroot : ((s.poke buff w.offset c).openFile buff b).next 0 = b := by
      rw [FsState.openFile_next, Function.update_self]
    have hopen := hdir'.add hs' hb h0 hroot FsState.openFile_dnext
      (fun _ hj => openFile_name_ne hj) fun hz => openFile_name hin hle hz
    rcases chunk_logged hopen h0 hc with hp | ht
    · obtain ⟨msg, rfl⟩ := hp
      trivial
    · obtain ⟨w', t, rfl, hnext, hdir'', hat⟩ := ht
      have hne : t.next 0 ≠ s.next 0 := by
        rw [hnext, hroot]
        exact Nat.ne_of_gt (hs.pop hb h0).2.2.1
      refine ⟨?_, hat _⟩
      rw [Names.after_new hne, hnext, hroot]
      exact hdir''
  | @byte b n cur i _ _ =>
    refine ⟨?_, trivial⟩
    rw [Names.after_old (s := s) (t := s.poke (s.fs b).data i c) rfl]
    exact hdir.of_links rfl rfl fun _ => rfl
  | @block b n cur i nb _ _ _ hnb h0 hc =>
    have hb0 : b ≠ 0 := Nat.ne_of_gt ho.2.1
    have hroot : ((s.poke (s.fs b).data i c).nextBlock b nb).next 0 = s.next 0 := by
      rw [FsState.nextBlock_next, Function.update_of_ne hb0.symm]
      rfl
    have hdir' : Directory ((s.poke (s.fs b).data i c).nextBlock b nb) g.files := by
      refine hdir.of_links FsState.nextBlock_dnext hroot fun j => ?_
      exact FsState.nextBlock_field (p := FsBlock.name) (fun _ _ => rfl) (fun _ _ => rfl) j
    rcases chunk_logged hdir' h0 hc with hp | ht
    · obtain ⟨msg, rfl⟩ := hp
      trivial
    · obtain ⟨w', t, rfl, hnext, hdir'', hat⟩ := ht
      refine ⟨?_, hat _⟩
      rw [Names.after_old (hnext.trans hroot)]
      exact hdir''
  | @last b n cur i _ =>
    have hb0 : b ≠ 0 := Nat.ne_of_gt ho.2.1
    have hdir' : Directory (s.poke (s.fs b).data i c) g.files :=
      hdir.of_links rfl rfl fun _ => rfl
    obtain ⟨hroot, hdir''⟩ := hdir'.closeFile hb0
    refine ⟨?_, trivial⟩
    rw [Names.after_old (s := s) hroot]
    exact hdir''

/-- **One step**, an abort included. -/
theorem step_logged {p q : Sys × Names} {i : Input} (h : Logged p) (ho : p.1.Ordered)
    (hs : StepNames p i q) : Logged q := by
  obtain ⟨x, g⟩ := p
  obtain ⟨y, g'⟩ := q
  obtain ⟨hstep, hg⟩ := hs
  change x.step i = y at hstep
  change g' = g.after x i y at hg
  subst hg hstep
  cases x with
  | panic msg => trivial
  | idle s =>
    cases i with
    | com1 c => exact h
    | com2 c => exact h
    | recvfs =>
      unfold Sys.step fsRecvCpio
      dsimp only
      split
      · trivial
      · exact ⟨Directory.of_links h rfl rfl fun _ => rfl, trivial⟩
  | recv buff w s =>
    cases i with
    | recvfs => exact h
    | com2 c => exact turn_logged h ho (recvb_turn buff s c w)
    | com1 c =>
      unfold Sys.step
      dsimp only
      split
      · exact h.1.of_links rfl rfl fun _ => rfl
      · exact h

end

theorem initFs_logged (fs : Nat → FsBlock) (mem : Nat → Mem) : Directory (initFs fs mem) [] := by
  refine ⟨?_, nofun⟩
  rw [(initFs_eq fs mem).2.1]
  exact .nil

theorem reach_logged {p : Sys × Names} (h : Reach InitNames StepNames p) :
    p.1.Ordered ∧ Logged p := by
  refine h.invariant (I := fun p => p.1.Ordered ∧ Logged p) ?_ fun p i q hp hs =>
    ⟨step_ordered hp.1 hs.1, step_logged hp.2 hp.1 hs⟩
  intro p hp
  obtain ⟨x, g⟩ := p
  obtain ⟨hx, hg⟩ := hp
  refine ⟨init_ordered hx, ?_⟩
  obtain ⟨fs, mem, hx⟩ := hx
  change x = _ at hx
  change g = _ at hg
  subst hx hg
  exact initFs_logged fs mem

/-! ## 3. Lookup -/

/-- The names agree as far as a field goes. -/
def SameName (l p : List UInt8) : Bool := (nameOf l).take FS_NAME_SIZE == p.take FS_NAME_SIZE

/-- **What is found**: the newest file whose name agrees with the path as far as a field goes,
    and no file if there is none. -/
theorem find_received {x : Sys} {g : Names} {s : FsState}
    (h : Reach InitNames StepNames (x, g)) (hs : x.state = some s)
    (hnul : ∀ e ∈ g.files, 0 ∈ e.2) {path : Mem} {p : List UInt8} (hp : Holds path p)
    (h0 : 0 ∉ p) :
    fsFind s path = ((g.files.find? fun e => SameName e.2 p).map Prod.fst).getD 0 := by
  obtain ⟨hord, hlog⟩ := reach_logged h
  have hdir : Directory s g.files := by
    cases x with
    | idle t =>
      cases hs
      exact hlog
    | recv buff w t =>
      cases hs
      exact hlog.1
    | panic msg => cases hs
  obtain ⟨l, hl, hb⟩ := (hord.state hs).entries (hord.state hs).root
  obtain rfl := hdir.entries.unique hl
  unfold fsFind
  rw [hl.walk hb.length_le, List.find?_map]
  refine congrArg (fun o => (Option.map Prod.fst o).getD 0) (List.find?_congr fun e he => ?_)
  have hname := strncmp_eq_zero (hdir.names e he (hnul e he)) (hp.to FS_NAME_SIZE)
    (zero_notMem_nameOf e.2) h0
  exact Bool.eq_iff_iff.mpr (beq_iff_eq.trans (hname.trans beq_iff_eq.symm))

/-- The run on some inputs after `init_fs`. -/
def namesRun (is : List Input) : Sys × Names :=
  is.foldl (fun p i => (p.1.step i, p.2.after p.1 i (p.1.step i)))
    (.idle blankFs, { cur := [], files := [] })

theorem namesRun_reach (is : List Input) : Reach InitNames StepNames (namesRun is) := by
  have hrun : ∀ (is : List Input) (p : Sys × Names), Reach InitNames StepNames p →
      Reach InitNames StepNames
        (is.foldl (fun p i => (p.1.step i, p.2.after p.1 i (p.1.step i))) p) := by
    intro is
    induction is with
    | nil => exact fun _ hp => hp
    | cons i is ih =>
      intro p hp
      have hstep : StepNames p i (p.1.step i, p.2.after p.1 i (p.1.step i)) := ⟨rfl, rfl⟩
      exact ih _ (.step hp hstep)
  exact hrun is _ (.init ⟨⟨_, _, rfl⟩, rfl⟩)

/-- A name of 22 characters `a` and one more, with its NUL. -/
def longName (c : UInt8) : List UInt8 := List.replicate 22 0x61 ++ [c, 0]

/-- The empty file with the name `longName c`. -/
def longNameFile (c : UInt8) : List UInt8 :=
  [0xC7, 0x71, 0, 0, 0, 0, 0, 0, 0, 0, 0, 0, 0, 0, 0, 0, 0, 0, 0, 0, 24, 0, 0, 0, 0, 0] ++
    longName c

/-- The file system and the record after this file. -/
def longNameRun : Sys × Names := namesRun (.recvfs :: (longNameFile 0x62).map .com2)

def longNameFs : FsState := longNameRun.1.state.getD blankFs

theorem longNameRun_state : longNameRun.1.state = some longNameFs := by
  have hsome : longNameRun.1.state.isSome = true := by decide +kernel
  obtain ⟨s, hs⟩ := Option.isSome_iff_exists.mp hsome
  unfold longNameFs
  rw [hs]
  rfl

theorem longNameRun_files : longNameRun.2.files = [(1, longName 0x62)] := by decide +kernel

/-- The file is found by its name. -/
theorem find_received_long :
    fsFind longNameFs (cstr (List.replicate 22 0x61 ++ [0x62])) = 1 := by
  have hfind := find_received (namesRun_reach _) longNameRun_state (fun e he => ?_)
    (holds_cstr (List.replicate 22 0x61 ++ [0x62])) (by decide)
  · refine hfind.trans ?_
    change ((longNameRun.2.files.find? _).map _).getD 0 = 1
    rw [longNameRun_files]
    decide
  · change e ∈ longNameRun.2.files at he
    rw [longNameRun_files] at he
    rw [List.mem_singleton.mp he]
    decide

/-- It is found by another name, too. -/
theorem find_other : Reach InitNames StepNames longNameRun ∧
    longNameRun.1.state = some longNameFs ∧ longNameRun.2.files = [(1, longName 0x62)] ∧
    nameOf (longName 0x62) ≠ List.replicate 22 0x61 ++ [0x63] ∧
    fsFind longNameFs (cstr (List.replicate 22 0x61 ++ [0x63])) = 1 :=
  ⟨namesRun_reach _, longNameRun_state, longNameRun_files, by decide, by decide +kernel⟩

end LsePc.Bios
