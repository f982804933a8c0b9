/-
  File:      LsePc/Bios/Walks.lean
  Subject:   The loops of fs.c along the links of the blocks.

  Blocks are taken from the free list in the order of their numbers and never come back. So
  a `next` link leads upwards and a `dnext` link downwards, whatever an aborted file leaves.

  * `FsState.nameMem`: memory from the name of a block on. A name that fills its field runs
    on into the next block;
  * `fsListBlock`, `fsStats`: what the loops of `fs_list_dir` and `fs_stats` find;
  * `Ordered`, `step_ordered`: which way the links lead, after every step;
  * `Bounded`, `WalksEnd`: every loop comes to its end, on blocks of the table, each once;
  * **result** (`walks_end`): so it is in every state of every run.
-/
import LsePc.Bios.Ownership
import LsePc.Bios.Paging
import LsePc.Lib.Search

namespace LsePc.Bios

open LsePc.Lib

/-! ## 1. Listing a directory -/

/-- A byte of `struct fs_block`, which is packed. -/
def FsBlock.byte (x : FsBlock) : Nat → UInt8
  | 0 => UInt8.ofNat x.type
  | 1 => UInt8.ofNat x.flags
  | 2 => UInt8.ofNat x.dnext
  | 3 => UInt8.ofNat x.next
  | 4 => UInt8.ofNat x.size
  | 5 => UInt8.ofNat (x.size / 256)
  | 6 => UInt8.ofNat (frameToVirt x.data)
  | 7 => UInt8.ofNat (frameToVirt x.data / 256)
  | 8 => UInt8.ofNat (frameToVirt x.data / 65536)
  | 9 => UInt8.ofNat (frameToVirt x.data / 16777216)
  | i + 10 => x.name i

/-- `sizeof (struct fs_block)`. -/
def fsBlockSize : Nat := 32

/-- `fs[i].name`, as a pointer. -/
def FsState.nameMem (s : FsState) (i : Nat) : Mem := fun j =>
  (s.fs (i + (10 + j) / fsBlockSize)).byte ((10 + j) % fsBlockSize)

/-- A line of `fs_list_dir`: the type and the flag, the size and the name. -/
structure Listed where
  type : Char
  flag : Char
  size : Nat
  name : Mem

/-- What the loop of `fs_list_dir` finds. -/
inductive Listing where
  | notDir
  | dir (l : List Listed)

def listed (s : FsState) (i : Nat) : Listed where
  type := if (s.fs i).type = FS_TYPE_DIR then 'd' else '-'
  flag := if (s.fs i).flags &&& FS_RW ≠ 0 then 'w' else '-'
  size := fsGetFileSize s i
  name := s.nameMem i

/-- The part of `fs_list_dir` after the path. -/
def fsListBlock (s : FsState) (d : Nat) : Listing :=
  if (s.fs d).type ≠ FS_TYPE_DIR then .notDir
  else .dir ((walk 0 s.dnext NB_FRAMES (s.next d)).map (listed s))

/-- `fs_stats`: the blocks used and the blocks free. -/
def fsStats (s : FsState) : Nat × Nat :=
  let free := (walk 0 s.next NB_FRAMES s.firstFreeBlock).length
  (FS_NB_BLOCKS - free, free)

/-! ## 2. Which way the links lead -/

structure Ordered (s : FsState) : Prop where
  next : ∀ b, 0 < b → b < FS_NB_BLOCKS → s.next b = 0 ∨ b < s.next b ∧ s.next b < FS_NB_BLOCKS
  dnext : ∀ b, 0 < b → b < FS_NB_BLOCKS → s.dnext b < b
  root : s.next 0 < FS_NB_BLOCKS
  free : s.firstFreeBlock < FS_NB_BLOCKS
  /-- The newest entry is below the free blocks. -/
  above : s.firstFreeBlock = 0 ∨ s.next 0 < s.firstFreeBlock

/-- A block in use: the free ones are above it. -/
def Taken (s : FsState) (b : Nat) : Prop :=
  0 < b ∧ b < FS_NB_BLOCKS ∧ (s.firstFreeBlock = 0 ∨ b < s.firstFreeBlock)

section
variable {s s' : FsState} {b nb : Nat}

theorem Ordered.of_links (h : Ordered s) (hf : s'.firstFreeBlock = s.firstFreeBlock)
    (hn : s'.next = s.next) (hd : s'.dnext = s.dnext) : Ordered s' := by
  refine ⟨?_, ?_, ?_, ?_, ?_⟩
  · rw [hn]
    exact h.next
  · rw [hd]
    exact h.dnext
  · rw [hn]
    exact h.root
  · rw [hf]
    exact h.free
  · rw [hf, hn]
    exact h.above

/-- The first free block, and the list without it. -/
theorem Ordered.pop (h : Ordered s) (hb : s.firstFreeBlock = b) (h0 : b ≠ 0) :
    0 < b ∧ b < FS_NB_BLOCKS ∧ s.next 0 < b ∧
      (s.next b = 0 ∨ b < s.next b ∧ s.next b < FS_NB_BLOCKS) := by
  have hpos := Nat.pos_of_ne_zero h0
  have hlt : b < FS_NB_BLOCKS := hb ▸ h.free
  refine ⟨hpos, hlt, ?_, h.next b hpos hlt⟩
  have habove := h.above
  rw [hb] at habove
  exact habove.resolve_left h0

/-- The end of a file. -/
theorem Ordered.close (h : Ordered s) (hb : Taken s b)
    (hf : s'.firstFreeBlock = s.firstFreeBlock) (hn : s'.next = Function.update s.next b 0)
    (hd : s'.dnext = s.dnext) : Ordered s' := by
  have hroot : s'.next 0 = s.next 0 := by
    rw [hn, Function.update_of_ne (Nat.ne_of_lt hb.1)]
  refine ⟨fun x hx hlt => ?_, ?_, ?_, ?_, ?_⟩
  · rw [hn, Function.update_apply]
    split
    · exact .inl rfl
    · exact h.next x hx hlt
  · rw [hd]
    exact h.dnext
  · rw [hroot]
    exact h.root
  · rw [hf]
    exact h.free
  · rw [hf, hroot]
    exact h.above

/-- A file goes on in the first free block. -/
theorem Ordered.grow (h : Ordered s) (hb : Taken s b) (hnb : s.firstFreeBlock = nb) (h0 : nb ≠ 0)
    (hf : s'.firstFreeBlock = s.next nb) (hn : s'.next = Function.update s.next b nb)
    (hd : s'.dnext = s.dnext) : Ordered s' ∧ Taken s' nb := by
  obtain ⟨hpos, hlt, hroot, hnext⟩ := h.pop hnb h0
  obtain ⟨hb0, -, hbfree⟩ := hb
  rw [hnb] at hbfree
  have hroot' : s'.next 0 = s.next 0 := by
    rw [hn, Function.update_of_ne (Nat.ne_of_lt hb0)]
  refine ⟨⟨fun x hx hlt' => ?_, ?_, ?_, ?_, ?_⟩, hpos, hlt, ?_⟩
  · rw [hn, Function.update_apply]
    split
    · rename_i e
      exact .inr ⟨e ▸ hbfree.resolve_left h0, hlt⟩
    · exact h.next x hx hlt'
  · rw [hd]
    exact h.dnext
  · rw [hroot']
    exact h.root
  · rw [hf]
    omega
  · rw [hf, hroot']
    omega
  · rw [hf]
    omega

/-- A new entry. -/
theorem Ordered.newEntry (h : Ordered s) (hb : s.firstFreeBlock = b) (h0 : b ≠ 0)
    (hf : s'.firstFreeBlock = s.next b) (hn : s'.next = Function.update s.next 0 b)
    (hd : s'.dnext = Function.update s.dnext b (s.next 0)) : Ordered s' ∧ Taken s' b := by
  obtain ⟨hpos, hlt, hroot, hnext⟩ := h.pop hb h0
  have hroot' : s'.next 0 = b := by rw [hn, Function.update_self]
  refine ⟨⟨fun x hx hlt' => ?_, fun x hx hlt' => ?_, ?_, ?_, ?_⟩, hpos, hlt, ?_⟩
  · rw [hn, Function.update_of_ne (Nat.ne_of_gt hx)]
    exact h.next x hx hlt'
  · rw [hd, Function.update_apply]
    split
    · rename_i e
      exact e ▸ hroot
    · exact h.dnext x hx hlt'
  · rw [hroot']
    exact hlt
  · rw [hf]
    omega
  · rw [hf, hroot']
    omega
  · rw [hf]
    omega

end

/-! ## 3. One step -/

/-- The links of a file system, and the block of the file that is received. -/
def Sys.Ordered : Sys → Prop
  | .idle s => Bios.Ordered s
  | .recv _ (.data b _ _ _) s => Bios.Ordered s ∧ Taken s b
  | .recv _ _ s => Bios.Ordered s
  | .panic _ => True

section
variable {buff b n cur : Nat} {s : FsState} {w : Wait} {c : UInt8} {x y : Sys}

theorem ordered_recv (h : (Sys.recv buff w s).Ordered) : Ordered s := by
  cases w with
  | data b n cur i => exact h.1
  | magic0 => exact h
  | magic1 => exact h
  | header cur => exact h
  | name i => exact h

theorem ordered_head (hw : w.inData = false) (h : Ordered s) : (Sys.recv buff w s).Ordered := by
  cases w with
  | data b n cur i => cases hw
  | magic0 => exact h
  | magic1 => exact h
  | header cur => exact h
  | name i => exact h

theorem chunk_ordered (h : Ordered s) (hb : Taken s b) (hc : Chunk buff b n cur s y) :
    y.Ordered := by
  cases hc with
  | panic => trivial
  | data _ _ => exact ⟨h.of_links rfl FsState.giveFrame_next FsState.giveFrame_dnext, hb⟩
  | done _ => exact h.close hb rfl FsState.closeFile_next FsState.closeFile_dnext

theorem turn_ordered (h : (Sys.recv buff w s).Ordered) (ht : Turn buff s c w y) : y.Ordered := by
  have hs := ordered_recv h
  cases ht with
  | panic => trivial
  | head _ hw' _ _ => exact ordered_head hw' (hs.of_links rfl rfl rfl)
  | trailer _ => exact hs.of_links rfl rfl rfl
  | @file w b _ _ hb h0 hc =>
    have hs' : Ordered (s.poke buff w.offset c) := hs.of_links rfl rfl rfl
    obtain ⟨hopen, htaken⟩ := hs'.newEntry hb h0 rfl FsState.openFile_next FsState.openFile_dnext
    exact chunk_ordered hopen htaken hc
  | byte _ _ => exact ⟨hs.of_links rfl rfl rfl, h.2⟩
  | @block b _ _ i nb _ _ _ hnb h0 hc =>
    have hs' : Ordered (s.poke (s.fs b).data i c) := hs.of_links rfl rfl rfl
    obtain ⟨hgrow, htaken⟩ :=
      hs'.grow h.2 hnb h0 rfl FsState.nextBlock_next FsState.nextBlock_dnext
    exact chunk_ordered hgrow htaken hc
  | @last b _ _ i _ =>
    have hs' : Ordered (s.poke (s.fs b).data i c) := hs.of_links rfl rfl rfl
    exact hs'.close h.2 rfl FsState.closeFile_next FsState.closeFile_dnext

/-- **One step**, an abort included. -/
theorem step_ordered {i : Input} (h : x.Ordered) (hs : Step x i y) : y.Ordered := by
  subst hs
  cases x with
  | idle s =>
    cases i with
    | recvfs =>
      unfold Sys.step fsRecvCpio
      dsimp only
      split
      · trivial
      · exact Ordered.of_links h rfl rfl rfl
    | com1 c => exact h
    | com2 c => exact h
  | recv buff w s =>
    cases i with
    | recvfs => exact h
    | com2 c => exact turn_ordered h (recvb_turn buff s c w)
    | com1 c =>
      unfold Sys.step
      dsimp only
      split
      · exact (ordered_recv h).of_links rfl rfl rfl
      · exact h
  | panic msg => trivial

end

/-- After `init_fs` no block is an entry. -/
theorem initFs_dnext (fs : Nat → FsBlock) (mem : Nat → Mem) {i : Nat} (hi : i < FS_NB_BLOCKS) :
    (initFs fs mem).dnext i = 0 := by
  have halloc := allocFrame_first (m := initFrames) (f := 2) rfl (by decide) (by decide)
  unfold initFs
  rw [halloc]
  unfold FS_NB_BLOCKS at hi
  by_cases h0 : i = 0
  · subst h0
    simp [FsState.dnext, FsState.setBlock]
  · by_cases h127 : i = 127
    · subst h127
      simp [FsState.dnext, FsState.setBlock, FS_NB_BLOCKS]
    · simp [FsState.dnext, FsState.setBlock, FS_NB_BLOCKS, h0, h127, hi]

theorem initFs_ordered (fs : Nat → FsBlock) (mem : Nat → Mem) : Ordered (initFs fs mem) := by
  obtain ⟨hfirst, hroot, hnext, hlast⟩ := initFs_eq fs mem
  refine ⟨fun b hb hlt => ?_, fun b hb hlt => ?_, ?_, ?_, ?_⟩
  · unfold FS_NB_BLOCKS at hlt ⊢
    by_cases h : b = 127
    · exact .inl (h ▸ hlast)
    · have := hnext b hb (by omega)
      omega
  · rw [initFs_dnext fs mem hlt]
    exact hb
  · rw [hroot]
    decide
  · rw [hfirst]
    decide
  · rw [hfirst, hroot]
    exact .inr Nat.one_pos

theorem Sys.Ordered.state {x : Sys} {s : FsState} (h : x.Ordered) (hs : x.state = some s) :
    Bios.Ordered s := by
  cases x with
  | idle t =>
    cases hs
    exact h
  | recv buff w t =>
    cases hs
    exact ordered_recv h
  | panic msg => cases hs

theorem init_ordered {x : Sys} (h : Init x) : x.Ordered := by
  obtain ⟨fs, mem, rfl⟩ := h
  exact initFs_ordered fs mem

/-- **Which way the links lead**, in every state of every run. -/
theorem reach_ordered {x : Sys} {s : FsState} (h : Reach Init Step x) (hs : x.state = some s) :
    Ordered s :=
  (h.invariant (I := Sys.Ordered) (fun _ => init_ordered)
    fun _ _ _ => step_ordered).state hs

/-! ## 4. Every loop ends -/

/-- The blocks a loop visits: blocks of the table, each once. -/
def Bounded (l : List Nat) : Prop := l.Nodup ∧ ∀ i ∈ l, i < FS_NB_BLOCKS

section
variable {s : FsState} {b : Nat}

/-- Links from block to block along which a number falls. -/
theorem bounded_chain {next : Nat → Nat} (f : Nat → Nat)
    (h : ∀ x, 0 < x → x < FS_NB_BLOCKS →
      next x = 0 ∨ next x < FS_NB_BLOCKS ∧ f (next x) < f x)
    (hb : b < FS_NB_BLOCKS) : ∃ l, Chain 0 next b l ∧ Bounded l := by
  have hstart : b = 0 ∨ 0 < b ∧ b < FS_NB_BLOCKS :=
    (Nat.eq_zero_or_pos b).imp_right fun hpos => ⟨hpos, hb⟩
  have hstep : ∀ x, 0 < x ∧ x < FS_NB_BLOCKS →
      x ≠ 0 ∧ (next x = 0 ∨ (0 < next x ∧ next x < FS_NB_BLOCKS) ∧ f (next x) < f x) := by
    intro x hx
    refine ⟨Nat.ne_of_gt hx.1, ?_⟩
    by_cases h0 : next x = 0
    · exact .inl h0
    · obtain ⟨hlt, hf⟩ := (h x hx.1 hx.2).resolve_left h0
      exact .inr ⟨⟨Nat.pos_of_ne_zero h0, hlt⟩, hf⟩
  obtain ⟨l, hl, hP⟩ := Chain.of_measure f hstep hstart
  exact ⟨l, hl, hl.nodup, fun x hx => (hP x hx).2⟩

/-- `next` links lead upwards. -/
theorem Ordered.chain (h : Ordered s) (hb : b < FS_NB_BLOCKS) :
    ∃ l, Chain 0 s.next b l ∧ Bounded l := by
  refine bounded_chain (fun x => FS_NB_BLOCKS - x) (fun x hx hlt => ?_) hb
  rcases h.next x hx hlt with h0 | hup
  · exact .inl h0
  · exact .inr ⟨hup.2, by omega⟩

/-- `dnext` links lead downwards. -/
theorem Ordered.entries (h : Ordered s) (hb : b < FS_NB_BLOCKS) :
    ∃ l, Chain 0 s.dnext b l ∧ Bounded l := by
  refine bounded_chain (fun x => x) (fun x hx hlt => ?_) hb
  have hdown := h.dnext x hx hlt
  exact .inr ⟨Nat.lt_trans hdown hlt, hdown⟩

/-- There are not more blocks than the table has. -/
theorem Bounded.length_le {l : List Nat} (h : Bounded l) : l.length ≤ NB_FRAMES := by
  have hsub : l.Subperm (List.range FS_NB_BLOCKS) :=
    List.subperm_of_subset h.1 fun i hi => List.mem_range.mpr (h.2 i hi)
  have hlen := hsub.length_le
  rw [List.length_range] at hlen
  exact Nat.le_trans hlen (by decide)

end

/-- What the loops of fs.c do in the state `s`: each comes to its end on blocks of the table,
    none of them twice, and the functions return what they have found there. -/
structure WalksEnd (s : FsState) : Prop where
  /-- `for (i = fs[0].next; i; i = fs[i].dnext)`, left at the name. -/
  find : ∀ path, ∃ l, Search 0 s.dnext (fun i => strncmp (s.fs i).name path FS_NAME_SIZE == 0)
    (s.next 0) l (fsFind s path) ∧ Bounded l
  /-- `for (i = first_free_block; i; i = fs[i].next)`. -/
  stats : ∃ l, Chain 0 s.next s.firstFreeBlock l ∧ Bounded l ∧
    fsStats s = (FS_NB_BLOCKS - l.length, l.length)
  /-- `for (i = fs[d].next; i; i = fs[i].dnext)`, for the root and for what `fs_find` returns. -/
  listDir : ∀ d, d = 0 ∨ (∃ path, d = fsFind s path) → ∃ l, Chain 0 s.dnext (s.next d) l ∧
    Bounded l ∧ fsListBlock s d =
      if (s.fs d).type ≠ FS_TYPE_DIR then .notDir else .dir (l.map (listed s))
  /-- `for (; i; i = fs[i].next)`, for the entries of the directory. -/
  file : ∀ d l, Chain 0 s.dnext (s.next 0) l → d ∈ l → ∃ l', Chain 0 s.next d l' ∧ Bounded l' ∧
    fsPrintFile s d = l'.flatMap (fun j => (List.range (s.fs j).size).map (s.mem (s.fs j).data)) ∧
    fsGetFileSize s d = if (s.fs d).type ≠ FS_TYPE_INODE then 0
      else (l'.map fun j => (s.fs j).size).sum

/-- What `fs_find` returns is a block of the table. -/
theorem fsFind_lt {s : FsState} (h : Ordered s) (path : Mem) : fsFind s path < FS_NB_BLOCKS := by
  obtain ⟨l, hl, hb⟩ := h.entries h.root
  unfold fsFind
  rw [hl.walk hb.length_le]
  cases hf : l.find? fun i => strncmp (s.fs i).name path FS_NAME_SIZE == 0 with
  | none => decide
  | some i => exact hb.2 i (List.mem_of_find?_eq_some hf)

theorem Ordered.walksEnd {s : FsState} (h : Ordered s) : WalksEnd s := by
  obtain ⟨dir, hdir, hbdir⟩ := h.entries h.root
  refine ⟨fun path => ?_, ?_, fun d hd => ?_, fun d l hl hd => ?_⟩
  · obtain ⟨l, hpre, hl⟩ := hdir.search fun i => strncmp (s.fs i).name path FS_NAME_SIZE == 0
    refine ⟨l, ?_, hl.nodup, fun i hi => hbdir.2 i (hpre.subset hi)⟩
    unfold fsFind
    rw [hdir.walk hbdir.length_le]
    exact hl
  · obtain ⟨l, hl, hb⟩ := h.chain h.free
    refine ⟨l, hl, hb, ?_⟩
    unfold fsStats
    rw [hl.walk hb.length_le]
  · have hnext : s.next d < FS_NB_BLOCKS := by
      rcases Nat.eq_zero_or_pos d with rfl | hpos
      · exact h.root
      · have hlt : d < FS_NB_BLOCKS := by
          rcases hd with rfl | ⟨path, rfl⟩
          · exact absurd hpos (Nat.lt_irrefl 0)
          · exact fsFind_lt h path
        rcases h.next d hpos hlt with h0 | hup
        · rw [h0]
          decide
        · exact hup.2
    obtain ⟨l, hl, hb⟩ := h.entries hnext
    refine ⟨l, hl, hb, ?_⟩
    unfold fsListBlock
    rw [hl.walk hb.length_le]
  · obtain rfl := hl.unique hdir
    obtain ⟨l', hl', hb'⟩ := h.chain (hbdir.2 d hd)
    refine ⟨l', hl', hb', ?_, ?_⟩
    · unfold fsPrintFile
      rw [hl'.walk hb'.length_le]
    · unfold fsGetFileSize
      rw [hl'.walk hb'.length_le]

/-- **Every loop of fs.c ends**, in every state of every run, whatever was received and
    wherever it was aborted. -/
theorem walks_end {x : Sys} {s : FsState} (h : Reach Init Step x) (hs : x.state = some s) :
    WalksEnd s := (reach_ordered h hs).walksEnd

/-- After an abort in the data of the first file, too. -/
theorem walks_end_abort : ∃ s, atData.step (.com1 quitKey) = .idle s ∧ WalksEnd s := by
  obtain ⟨s, hs, -⟩ := atData_eq
  have hreach := atData_reach.of_guarded
  rw [hs] at hreach
  have hstep : Step (.recv 3 (.data 1 1 0 0) s) (.com1 quitKey) (freeBuff 3 s) := rfl
  rw [hs]
  exact ⟨_, rfl, walks_end (.step hreach hstep) rfl⟩

end LsePc.Bios
