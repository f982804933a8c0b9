/-
  File:      LsePc/Bios/Output.lean
  Subject:   What the commands of the BIOS print: `fs_list_dir` and `fs_stats`
             (sw/bios/src/fs.c), `frame_stats` (frame_alloc.c) and the dump of `memory`
             (command.c).

  The directory has regular files only, which may all be written, whatever was received and
  wherever it was aborted.

  * `fsListDirCom1`, `fsStatsCom1`, `frameStatsCom1`, `dump`: the functions;
  * `Kinds`, `step_kinds`: what the entries of the directory are, step by step;
  * **results**: `listing_sent`, a listing has one line for each file received, the newest
    first; `dump_reads_back`, the dump of a byte is read back by `atoi`.
-/
import LsePc.Bios.Blocks
import LsePc.Bios.Lookup
import LsePc.Bios.Paging
import LsePc.Bios.Command

namespace LsePc.Bios

open LsePc.Lib

/-! ## 1. The functions -/

section
variable (n : Nat)

/-- `printf` with a format that has a single string. -/
def printfS (format : List UInt8) (str : Mem) : Out Unit := do
  let _ ← vprintf (fun _ => str) n format [0]
  pure ()

def listLine (x : Listed) : Out Unit := do
  let _ ← vprintf (fun _ => x.name) n (ascii "%cr%c %d\t%s\n")
    [BitVec.ofNat 32 x.type.toNat, BitVec.ofNat 32 x.flag.toNat, BitVec.ofNat 32 x.size, 0]
  pure ()

/-- `fs_list_dir`; `none` is a null pointer. -/
def fsListDirCom1 (s : FsState) (path : Option Mem) : Out Unit :=
  match path with
  | none =>
    match fsListBlock s 0 with
    | .notDir => fault
    | .dir l => forM l (listLine n)
  | some path =>
    if fsFind s path = 0 then printfS n (ascii "Cannot find %s\n") path
    else match fsListBlock s (fsFind s path) with
    | .notDir => printfS n (ascii "%s is not a directory\n") path
    | .dir l => forM l (listLine n)

def fsStatsCom1 (s : FsState) : Out Unit := do
  let free := BitVec.ofNat 32 (fsStats s).2
  let _ ← vprintf (fun _ => cstr []) n (ascii "File system blocks:\n\tUsed: %d\n\tFree: %d\n")
    [BitVec.ofNat 32 FS_NB_BLOCKS - free, free]
  pure ()

def frameStatsCom1 (m : Frames) : Out Unit := do
  let free := BitVec.ofNat 32 (frameStats m).2
  let _ ← vprintf (fun _ => cstr []) n (ascii "Mem:\n\tUsed: %d x 4K\n\tFree: %d x 4K\n")
    [BitVec.ofNat 32 NB_FRAMES - free, free]
  pure ()

end

/-- What `memory` writes for a byte. `itoa` fills three bytes that are 0. -/
def dumpByte (c : UInt8) : Outcome (List UInt8) := do
  let r ← itoa 3 (BitVec.ofNat 32 c.toNat) 16 (some [0, 0, 0])
  let buffer ←
    if r.2[1]? = some 0 then do
      let buffer ← store r.2 1 (r.2.getD 0 0)
      let buffer ← store buffer 0 0x30
      store buffer 2 0
    else .done r.2
  let text ← strAt buffer
  .done (text ++ [BLANK])

/-- The loop of `memory`, on the bytes it reads. -/
def dump : List UInt8 → Outcome (List UInt8)
  | [] => .done []
  | c :: bytes => do
    let text ← dumpByte c
    let rest ← dump bytes
    .done (text ++ rest)

/-! ## 2. What they send -/

section
variable {mem : BitVec 32 → Mem} {str : BitVec 32 → List UInt8} {n : Nat}

/-- A call of `printf` between two others. -/
theorem vprintf_writes {items : List Item} (h : ∀ x ∈ items, x.Fits mem str n)
    {format : List UInt8} {args : List (BitVec 32)} (hf : items.flatMap Item.format = format)
    (ha : items.flatMap Item.args = args) :
    Writes com1Line (vprintf mem n format args)
      ((items.flatMap (Item.render str)).flatMap crlf) := by
  subst hf ha
  intro file _
  obtain ⟨count, file', hrun, hcom1⟩ := vprintf_run (vprintfLoop_prints h 0) file
  exact ⟨count, file', hrun, trivial, hcom1⟩

/-- The characters of a text. -/
def lits (l : List UInt8) : List Item := l.map .lit

@[simp] theorem format_lits (l : List UInt8) : (lits l).flatMap Item.format = l := by
  simp [lits, List.flatMap_map, Item.format]

@[simp] theorem args_lits (l : List UInt8) : (lits l).flatMap Item.args = [] := by
  simp [lits, List.flatMap_map, Item.args]

@[simp] theorem render_lits (l : List UInt8) : (lits l).flatMap (Item.render str) = l := by
  simp [lits, List.flatMap_map, Item.render]

theorem fits_lits {l : List UInt8} (h : 0 ∉ l ∧ percent ∉ l) :
    ∀ x ∈ lits l, x.Fits mem str n := by
  intro x hx
  obtain ⟨c, hc, rfl⟩ := List.mem_map.mp hx
  refine ⟨fun h0 => h.1 (h0 ▸ hc), fun hp => h.2 (hp ▸ hc)⟩

theorem fits_append {l l' : List Item} (h : ∀ x ∈ l, x.Fits mem str n)
    (h' : ∀ x ∈ l', x.Fits mem str n) : ∀ x ∈ l ++ l', x.Fits mem str n :=
  fun x hx => (List.mem_append.mp hx).elim (h x) (h' x)

end

section
variable {n : Nat} {s : FsState} {name : List UInt8}

/-- The name in the field, when it ends there. -/
theorem isStr_nameMem {i : Nat} (h : HoldsTo FS_NAME_SIZE (s.fs i).name name) (h0 : 0 ∉ name)
    (hlen : name.length < FS_NAME_SIZE) : IsStr (s.nameMem i) name := by
  refine ⟨h0, fun j hj => ?_⟩
  have hj : j < 22 := Nat.lt_of_le_of_lt hj hlen
  have hblock : (10 + j) / fsBlockSize = 0 := Nat.div_eq_of_lt (by unfold fsBlockSize; omega)
  have hbyte : (10 + j) % fsBlockSize = j + 10 := by
    rw [Nat.mod_eq_of_lt (by unfold fsBlockSize; omega), Nat.add_comm]
  unfold FsState.nameMem
  rw [hblock, hbyte]
  exact h j hj (by omega)

/-- A line of a listing. -/
def lineText (type flag : UInt8) (size : Nat) (name : List UInt8) : List UInt8 :=
  [type, 0x72, flag, 0x20] ++ signed (BitVec.ofNat 32 size) ++ [0x09] ++ name ++ [0x0A]

theorem listLine_writes {i : Nat} (htype : (s.fs i).type = FS_TYPE_INODE)
    (hflags : (s.fs i).flags = FS_RW) (h : HoldsTo FS_NAME_SIZE (s.fs i).name name)
    (h0 : 0 ∉ name) (hlen : name.length < FS_NAME_SIZE) (hn : FS_NAME_SIZE ≤ n) :
    Writes com1Line (listLine n (listed s i))
      ((lineText 0x2D 0x77 (fsGetFileSize s i) name).flatMap crlf) := by
  have hstr := isStr_nameMem h h0 hlen
  have hdir : ¬ FS_TYPE_INODE = FS_TYPE_DIR := by decide
  have hrw : FS_RW &&& FS_RW ≠ 0 := by decide
  unfold listLine listed
  rw [htype, hflags, if_neg hdir, if_pos hrw]
  refine Writes.map ?_ _
  let items : List Item := [.conv .c 0x2D, .lit 0x72, .conv .c 0x77, .lit 0x20,
    .conv .d (BitVec.ofNat 32 (fsGetFileSize s i)), .lit 0x09, .conv .s 0, .lit 0x0A]
  have hfits : ∀ x ∈ items, x.Fits (fun _ => s.nameMem i) (fun _ => name) n := by
    intro x hx
    simp only [items, List.mem_cons, List.not_mem_nil, or_false] at hx
    rcases hx with rfl | rfl | rfl | rfl | rfl | rfl | rfl | rfl
    · exact (by decide : charOf 0x2D ≠ 0)
    · exact (by decide : (0x72 : UInt8) ≠ 0 ∧ (0x72 : UInt8) ≠ percent)
    · exact (by decide : charOf 0x77 ≠ 0)
    · exact (by decide : (0x20 : UInt8) ≠ 0 ∧ (0x20 : UInt8) ≠ percent)
    · trivial
    · exact (by decide : (0x09 : UInt8) ≠ 0 ∧ (0x09 : UInt8) ≠ percent)
    · exact ⟨hstr, Nat.lt_of_lt_of_le hlen hn⟩
    · exact (by decide : (0x0A : UInt8) ≠ 0 ∧ (0x0A : UInt8) ≠ percent)
  have hrender : items.flatMap (Item.render fun _ => name) =
      lineText 0x2D 0x77 (fsGetFileSize s i) name := by
    simp [items, Item.render, Conv.render, lineText, charOf]
  rw [← hrender]
  exact vprintf_writes hfits rfl rfl

end

/-! ## 3. What the entries are -/

/-- The root is a directory. Its entries are regular files that may be written. -/
structure Kinds (s : FsState) : Prop where
  root : (s.fs 0).type = FS_TYPE_DIR
  entries : ∃ l, Chain 0 s.dnext (s.next 0) l ∧
    ∀ b ∈ l, (s.fs b).type = FS_TYPE_INODE ∧ (s.fs b).flags = FS_RW

section
variable {s s' : FsState} {b nb buff n cur : Nat} {w : Wait} {c : UInt8} {x y : Sys}

/-- A block other than the root may become a part of a file, which has the same type. -/
theorem Kinds.of_links (h : Kinds s) (hd : s'.dnext = s.dnext) (hn : s'.next 0 = s.next 0)
    (htype : ∀ j, (s'.fs j).type = (s.fs j).type ∨ j ≠ 0 ∧ (s'.fs j).type = FS_TYPE_INODE)
    (hflags : ∀ j, (s'.fs j).flags = (s.fs j).flags) : Kinds s' := by
  obtain ⟨l, hl, hkind⟩ := h.entries
  refine ⟨?_, l, ?_, fun b hb => ⟨?_, ?_⟩⟩
  · rcases htype 0 with he | ⟨h0, -⟩
    · exact he.trans h.root
    · exact absurd rfl h0
  · rw [hd, hn]
    exact hl
  · rcases htype b with he | ⟨-, he⟩
    · exact he.trans (hkind b hb).1
    · exact he
  · exact (hflags b).trans (hkind b hb).2

theorem Kinds.of_fields (h : Kinds s) (hd : s'.dnext = s.dnext) (hn : s'.next 0 = s.next 0)
    (htype : ∀ j, (s'.fs j).type = (s.fs j).type) (hflags : ∀ j, (s'.fs j).flags = (s.fs j).flags) :
    Kinds s' := h.of_links hd hn (fun j => .inl (htype j)) hflags

theorem openFile_ne {j : Nat} (hj : j ≠ b) :
    ((s.openFile buff b).fs j).type = (s.fs j).type ∧
      ((s.openFile buff b).fs j).flags = (s.fs j).flags := by
  unfold FsState.openFile
  dsimp only
  rw [FsState.fs_setBlock_ne hj, FsState.field_setBlock (p := FsBlock.type),
    FsState.field_setBlock (p := FsBlock.flags), FsState.fs_setBlock_ne hj]
  · exact ⟨rfl, rfl⟩
  all_goals exact fun _ => rfl

theorem openFile_flags : ((s.openFile buff b).fs b).flags = FS_RW := by
  unfold FsState.openFile
  dsimp only
  rw [FsState.field_setBlock (p := FsBlock.flags), FsState.field_setBlock (p := FsBlock.flags)]
  · rw [FsState.fs_setBlock]
  all_goals exact fun _ => rfl

/-- **A new entry.** -/
theorem Kinds.openFile (h : Kinds s) (ho : Ordered s) (hb : s.firstFreeBlock = b) (h0 : b ≠ 0) :
    Kinds (s.openFile buff b) := by
  obtain ⟨l, hl, hkind⟩ := h.entries
  obtain ⟨-, -, hroot, -⟩ := ho.pop hb h0
  have hnot : ∀ x ∈ l, x ≠ b := fun x hx =>
    Nat.ne_of_lt (Nat.lt_of_le_of_lt (ho.le_root hl ho.root x hx) hroot)
  refine ⟨(openFile_ne h0.symm).1.trans h.root, b :: l, ?_, fun x hx => ?_⟩
  · rw [FsState.openFile_next, FsState.openFile_dnext, Function.update_self]
    refine .cons h0 ?_
    rw [Function.update_self]
    exact hl.update fun hm => hnot b hm rfl
  · rcases List.mem_cons.mp hx with rfl | hx
    · exact ⟨openFile_type, openFile_flags⟩
    · obtain ⟨htype, hflags⟩ := @openFile_ne s b buff x (hnot x hx)
      exact ⟨htype.trans (hkind x hx).1, hflags.trans (hkind x hx).2⟩

theorem Kinds.closeFile (h : Kinds s) (hb : b ≠ 0) : Kinds (s.closeFile b) := by
  refine h.of_fields FsState.closeFile_dnext ?_ (FsState.field_setBlock fun _ => rfl)
    (FsState.field_setBlock fun _ => rfl)
  rw [FsState.closeFile_next, Function.update_of_ne hb.symm]

theorem Kinds.nextBlock (h : Kinds s) (hb : b ≠ 0) (hnb : nb ≠ 0) : Kinds (s.nextBlock b nb) := by
  refine h.of_links FsState.nextBlock_dnext ?_ (fun j => ?_)
    (FsState.nextBlock_field (fun _ _ => rfl) fun _ _ => rfl)
  · rw [FsState.nextBlock_next, Function.update_of_ne hb.symm]
  · by_cases hj : j = nb
    · subst hj
      refine .inr ⟨hnb, ?_⟩
      unfold FsState.nextBlock
      dsimp only
      rw [FsState.fs_setBlock]
      rfl
    · exact .inl (nextBlock_type hj)

/-- In every state that has not halted. -/
def Sys.Kinds (x : Sys) : Prop := ∀ s, x.state = some s → Bios.Kinds s

theorem chunk_kinds (h : Kinds s) (hb : b ≠ 0) (hc : Chunk buff b n cur s y) : y.Kinds := by
  intro t ht
  cases hc with
  | panic => cases ht
  | data _ _ =>
    cases ht
    exact h.of_fields FsState.giveFrame_dnext (congrFun FsState.giveFrame_next 0)
      (FsState.field_setBlock fun _ => rfl) (FsState.field_setBlock fun _ => rfl)
  | done _ =>
    cases ht
    exact h.closeFile hb

theorem turn_kinds (h : Kinds s) (ho : (Sys.recv buff w s).Ordered) (ht : Turn buff s c w y) :
    y.Kinds := by
  have hpoke : ∀ f i, Kinds (s.poke f i c) := fun f i =>
    h.of_fields rfl rfl (fun _ => rfl) fun _ => rfl
  have hs := ordered_recv ho
  cases ht with
  | panic => exact nofun
  | head _ _ _ _ => exact fun t ht => Option.some.inj ht ▸ hpoke _ _
  | trailer _ =>
    intro t ht
    cases ht
    exact (hpoke buff w.offset).of_fields rfl rfl (fun _ => rfl) fun _ => rfl
  | file _ hb h0 hc =>
    have hs' : Ordered (s.poke buff w.offset c) := hs.of_links rfl rfl rfl
    exact chunk_kinds ((hpoke _ _).openFile hs' hb h0) h0 hc
  | byte _ _ => exact fun t ht => Option.some.inj ht ▸ hpoke _ _
  | block _ _ _ h0 hc =>
    exact chunk_kinds ((hpoke _ _).nextBlock (Nat.ne_of_gt ho.2.1) h0) h0 hc
  | last _ => exact fun t ht => Option.some.inj ht ▸ (hpoke _ _).closeFile (Nat.ne_of_gt ho.2.1)

/-- **One step**, an abort included. -/
theorem step_kinds {i : Input} (h : x.Kinds) (ho : x.Ordered) (hs : Step x i y) : y.Kinds := by
  subst hs
  cases x with
  | panic msg => exact nofun
  | idle s =>
    cases i with
    | com1 c => exact h
    | com2 c => exact h
    | recvfs =>
      unfold Sys.step fsRecvCpio
      dsimp only
      split
      · exact nofun
      · intro t ht
        exact Option.some.inj ht ▸ (h s rfl).of_fields rfl rfl (fun _ => rfl) fun _ => rfl
  | recv buff w s =>
    cases i with
    | recvfs => exact h
    | com2 c => exact turn_kinds (h s rfl) ho (recvb_turn buff s c w)
    | com1 c =>
      unfold Sys.step
      dsimp only
      split
      · intro t ht
        exact Option.some.inj ht ▸ (h s rfl).of_fields rfl rfl (fun _ => rfl) fun _ => rfl
      · exact h

end

theorem initFs_kinds (fs : Nat → FsBlock) (mem : Nat → Mem) : Kinds (initFs fs mem) := by
  refine ⟨?_, [], ?_, nofun⟩
  · have halloc := allocFrame_first (m := initFrames) (f := 2) rfl (by decide) (by decide)
    unfold initFs
    rw [halloc]
    simp [FsState.setBlock]
  · rw [(initFs_eq fs mem).2.1]
    exact .nil

/-- **The entries are files**, in every state of every run. -/
theorem reach_kinds {x : Sys} (h : Reach Init Step x) : x.Ordered ∧ x.Kinds := by
  refine h.invariant (I := fun x => x.Ordered ∧ x.Kinds) (fun x hx => ?_) fun x i y hx hs =>
    ⟨step_ordered hx.1 hs, step_kinds hx.2 hx.1 hs⟩
  refine ⟨init_ordered hx, fun s hs => ?_⟩
  obtain ⟨fs, mem, rfl⟩ := hx
  exact Option.some.inj hs ▸ initFs_kinds fs mem

/-! ## 4. A listing -/

/-- What `ls` is to print of the files of a record, for a path or for the root. No entry is a
    directory. -/
def listingText (files : List (Nat × List UInt8)) (size : Nat → Nat) :
    Option (List UInt8) → List UInt8
  | none => files.flatMap fun e => lineText 0x2D 0x77 (size e.1) (nameOf e.2)
  | some path =>
    if files.any fun e => SameName e.2 path then path ++ ascii " is not a directory\n"
    else ascii "Cannot find " ++ path ++ ascii "\n"

section
variable {n : Nat} {s : FsState} {files : List (Nat × List UInt8)} {path : List UInt8}

/-- A lookup goes through the record. -/
theorem find_entry (hdir : Directory s files) (hlen : files.length ≤ NB_FRAMES)
    (hnul : ∀ e ∈ files, 0 ∈ e.2) {m : Mem} (hm : Holds m path) (h0 : 0 ∉ path) :
    fsFind s m = ((files.find? fun e => SameName e.2 path).map Prod.fst).getD 0 := by
  have hsame : ∀ e ∈ files, (strncmp (s.fs e.1).name m FS_NAME_SIZE == 0) = SameName e.2 path := by
    intro e he
    have hname := strncmp_eq_zero (hdir.names e he (hnul e he)) (hm.to FS_NAME_SIZE)
      (zero_notMem_nameOf e.2) h0
    exact Bool.eq_iff_iff.mpr (beq_iff_eq.trans (hname.trans beq_iff_eq.symm))
  unfold fsFind
  rw [hdir.entries.walk (by rwa [List.length_map]), List.find?_map]
  simp only [Function.comp_def, List.find?_congr hsame]

theorem printfS_writes (pre post : List UInt8) (hpre : 0 ∉ pre ∧ percent ∉ pre)
    (hpost : 0 ∉ post ∧ percent ∉ post) (h0 : 0 ∉ path) (hn : path.length < n) :
    Writes com1Line (printfS n (pre ++ [percent, 0x73] ++ post) (cstr path))
      ((pre ++ path ++ post).flatMap crlf) := by
  have hfits : ∀ x ∈ lits pre ++ [Item.conv .s 0] ++ lits post,
      x.Fits (fun _ => cstr path) (fun _ => path) n := by
    refine fits_append (fits_append (fits_lits hpre) ?_) (fits_lits hpost)
    exact List.forall_mem_singleton.mpr ⟨⟨h0, holds_cstr path⟩, hn⟩
  have hrender : (lits pre ++ [Item.conv .s 0] ++ lits post).flatMap (Item.render fun _ => path) =
      pre ++ path ++ post := by simp [Item.render, Conv.render]
  rw [← hrender]
  refine Writes.map (vprintf_writes hfits ?_ ?_) _
  · simp [Item.format, Conv.ch]
  · simp [Item.args]

/-- The lines of the root. -/
theorem lines_write (hdir : Directory s files) (hkinds : Kinds s)
    (hname : ∀ e ∈ files, 0 ∈ e.2 ∧ (nameOf e.2).length < FS_NAME_SIZE) (hn : FS_NAME_SIZE ≤ n) :
    Writes com1Line (forM ((files.map Prod.fst).map (listed s)) (listLine n))
      ((listingText files (fsGetFileSize s) none).flatMap crlf) := by
  obtain ⟨l, hl, hkind⟩ := hkinds.entries
  obtain rfl := hdir.entries.unique hl
  have hlines : ∀ fs ⊆ files, Writes com1Line (forM ((fs.map Prod.fst).map (listed s)) (listLine n))
      ((listingText fs (fsGetFileSize s) none).flatMap crlf) := by
    intro fs hsub
    induction fs with
    | nil => exact .pure _
    | cons e fs ih =>
      have he := hsub List.mem_cons_self
      obtain ⟨htype, hflags⟩ := hkind e.1 (List.mem_map_of_mem he)
      have hline := listLine_writes htype hflags (hdir.names e he (hname e he).1)
        (zero_notMem_nameOf e.2) (hname e he).2 hn
      have hrest := ih fun x hx => hsub (List.mem_cons_of_mem e hx)
      rw [List.map_cons, List.map_cons, List.forM_cons]
      have hboth := hline.bind fun _ => hrest
      rwa [← List.flatMap_append] at hboth
  exact hlines files (List.Subset.refl _)

/-- **What `ls` prints**, from the entries as they are. -/
theorem fsListDirCom1_writes (hord : Ordered s) (hdir : Directory s files) (hkinds : Kinds s)
    (hname : ∀ e ∈ files, 0 ∈ e.2 ∧ (nameOf e.2).length < FS_NAME_SIZE) (hn : FS_NAME_SIZE ≤ n)
    {path : Option (List UInt8)} (hpath : ∀ p ∈ path, 0 ∉ p ∧ p.length < n) :
    Writes com1Line (fsListDirCom1 n s (path.map cstr))
      ((listingText files (fsGetFileSize s) path).flatMap crlf) := by
  obtain ⟨l, hl, hb⟩ := hord.entries hord.root
  obtain rfl := hdir.entries.unique hl
  have hroot : ¬ (s.fs 0).type ≠ FS_TYPE_DIR := not_not.mpr hkinds.root
  unfold fsListDirCom1
  cases path with
  | none =>
    have hblock : fsListBlock s 0 = .dir ((files.map Prod.fst).map (listed s)) := by
      rw [fsListBlock, if_neg hroot, hl.walk hb.length_le]
    show Writes com1Line (match fsListBlock s 0 with
      | .notDir => fault
      | .dir l => forM l (listLine n)) _
    rw [hblock]
    exact lines_write hdir hkinds hname hn
  | some p =>
    obtain ⟨h0, hlen⟩ := hpath p rfl
    have hfind := find_entry hdir (by simpa using hb.length_le) (fun e he => (hname e he).1)
      (holds_cstr p) h0
    dsimp only [Option.map_some]
    unfold listingText
    dsimp only
    cases hf : files.find? fun e => SameName e.2 p with
    | none =>
      have hany : ¬ (files.any fun e => SameName e.2 p) = true := by
        simpa using List.find?_eq_none.mp hf
      have hzero : fsFind s (cstr p) = 0 := by rw [hfind, hf]; rfl
      rw [if_pos hzero, if_neg hany]
      exact printfS_writes (ascii "Cannot find ") (ascii "\n") (by decide) (by decide) h0 hlen
    | some e =>
      have he := List.mem_of_find?_eq_some hf
      have hany : (files.any fun e => SameName e.2 p) = true :=
        List.any_eq_true.mpr ⟨e, he, by simpa using List.find?_some hf⟩
      have hsome : fsFind s (cstr p) = e.1 := by rw [hfind, hf]; rfl
      have hmem := List.mem_map_of_mem (f := Prod.fst) he
      have hne : e.1 ≠ 0 := fun h => hl.null_notMem (h ▸ hmem)
      obtain ⟨l', hl', hkind⟩ := hkinds.entries
      obtain rfl := hl.unique hl'
      have htype : (s.fs e.1).type ≠ FS_TYPE_DIR := by
        rw [(hkind e.1 hmem).1]
        decide
      have hblock : fsListBlock s e.1 = .notDir := if_pos htype
      rw [hsome, if_neg hne, hblock, if_pos hany]
      exact printfS_writes [] (ascii " is not a directory\n") (by decide) (by decide) h0 hlen

end

/-- A run without its record. -/
theorem reach_sys {p : Sys × Names} (h : Reach InitNames StepNames p) : Reach Init Step p.1 := by
  induction h with
  | init h => exact .init h.1
  | step _ hs ih => exact .step ih hs.1

theorem Logged.directory {x : Sys} {g : Names} {s : FsState} (h : Logged (x, g))
    (hs : x.state = some s) : Directory s g.files := by
  cases x with
  | idle t => exact Option.some.inj hs ▸ h
  | recv buff w t => exact Option.some.inj hs ▸ h.1
  | panic msg => cases hs

/-- **A listing of the root** has a line for each file received, the newest first: a regular
    file that may be written, with its size and name. A path is not found, or is no directory. -/
theorem listing_sent {x : Sys} {g : Names} {s : FsState} (h : Reach InitNames StepNames (x, g))
    (hs : x.state = some s)
    (hname : ∀ e ∈ g.files, 0 ∈ e.2 ∧ (nameOf e.2).length < FS_NAME_SIZE) {n : Nat}
    (hn : FS_NAME_SIZE ≤ n) {path : Option (List UInt8)} (hpath : ∀ p ∈ path, 0 ∉ p ∧ p.length < n)
    (file : Stdout) :
    ∃ file', fsListDirCom1 n s (path.map cstr) file = some ((), file') ∧
      file'.com1 = file.com1 ++ (listingText g.files (fsGetFileSize s) path).flatMap crlf := by
  obtain ⟨hord, hlog⟩ := reach_logged h
  have hdir : Directory s g.files := hlog.directory hs
  obtain ⟨-, hkinds⟩ := reach_kinds (reach_sys h)
  obtain ⟨_, file', hrun, -, hcom1⟩ :=
    fsListDirCom1_writes (hord.state hs) hdir (hkinds s hs) hname hn hpath file trivial
  exact ⟨file', hrun, hcom1⟩

/-- The file `a` of one byte. -/
def oneFileBytes : List UInt8 :=
  [0xC7, 0x71] ++ List.replicate 18 0 ++ [2, 0, 0, 0, 1, 0, 0x61, 0, 7]

def oneFileRun : Sys × Names := namesRun (.recvfs :: oneFileBytes.map .com2)

theorem listing_sent_one : ∃ s file', oneFileRun.1.state = some s ∧
    fsListDirCom1 22 s none blankStdout = some ((), file') ∧
    file'.com1 = ascii "-rw 1\ta\r\n" := by
  have hsome : oneFileRun.1.state.isSome = true := by decide +kernel
  obtain ⟨s, hs⟩ := Option.isSome_iff_exists.mp hsome
  have hfiles : oneFileRun.2.files = [(1, [0x61, 0])] := by decide +kernel
  have hsize : oneFileRun.1.state.map (fsGetFileSize · 1) = some 1 := by decide +kernel
  rw [hs] at hsize
  have hname : ∀ e ∈ oneFileRun.2.files, 0 ∈ e.2 ∧ (nameOf e.2).length < FS_NAME_SIZE := by
    rw [hfiles]
    decide
  have hpath : ∀ p ∈ (none : Option (List UInt8)), 0 ∉ p ∧ p.length < 22 := by simp
  obtain ⟨file', hrun, hcom1⟩ := listing_sent (namesRun_reach _) hs hname (Nat.le_refl _) hpath
    blankStdout
  refine ⟨s, file', hs, hrun, ?_⟩
  change file'.com1 = [] ++ (listingText oneFileRun.2.files _ _).flatMap crlf at hcom1
  rw [hcom1, hfiles]
  simp only [listingText, List.flatMap_singleton, Option.some.inj hsize]
  decide

/-! ## 5. A dump -/

/-- The two digits of a byte. -/
def hexPair (c : UInt8) : List UInt8 :=
  [upperDigits.getD (c.toNat / 16) 0, upperDigits.getD (c.toNat % 16) 0]

theorem dumpByte_bytes : ∀ k < 256, dumpByte (UInt8.ofNat k) =
    .done (hexPair (UInt8.ofNat k) ++ [BLANK]) := by
  decide +kernel

theorem hexPair_bytes : ∀ k < 256, BLANK ∉ hexPair (UInt8.ofNat k) ∧
    atoi 3 0 (some ([0x30, 0x78] ++ hexPair (UInt8.ofNat k))) =
      .done (0, BitVec.ofNat 32 (UInt8.ofNat k).toNat) := by
  decide +kernel

theorem dumpByte_eq (c : UInt8) : dumpByte c = .done (hexPair c ++ [BLANK]) := by
  simpa using dumpByte_bytes c.toNat c.toNat_lt

theorem hexPair_reads (c : UInt8) : BLANK ∉ hexPair c ∧
    atoi 3 0 (some ([0x30, 0x78] ++ hexPair c)) = .done (0, BitVec.ofNat 32 c.toNat) := by
  simpa using hexPair_bytes c.toNat c.toNat_lt

theorem dump_eq (bytes : List UInt8) :
    dump bytes = .done (bytes.flatMap fun c => hexPair c ++ [BLANK]) := by
  induction bytes with
  | nil => rfl
  | cons c bytes ih =>
    unfold dump
    rw [Outcome.bind_done (dumpByte_eq c), Outcome.bind_done ih]
    rfl

/-- **A dump is read back**: its words, as hexadecimal numbers, are the bytes. -/
theorem dump_reads_back (bytes : List UInt8) : ∃ text, dump bytes = .done text ∧
    (words text).map (fun w => atoi 3 0 (some ([0x30, 0x78] ++ w))) =
      bytes.map fun c => .done (0, BitVec.ofNat 32 c.toNat) := by
  refine ⟨_, dump_eq bytes, ?_⟩
  have hwords : words (bytes.flatMap fun c => hexPair c ++ [BLANK]) = bytes.map hexPair := by
    induction bytes with
    | nil => rfl
    | cons c bytes ih =>
      have hw := words_word_blank (hexPair_reads c).1 (List.cons_ne_nil _ _)
        (bytes.flatMap fun c => hexPair c ++ [BLANK])
      rw [List.flatMap_cons, List.append_assoc, List.singleton_append, hw, ih, List.map_cons]
  rw [hwords, List.map_map]
  exact List.map_congr_left fun c _ => (hexPair_reads c).2

end LsePc.Bios
