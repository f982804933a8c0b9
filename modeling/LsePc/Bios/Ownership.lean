/-
  File:      LsePc/Bios/Ownership.lean
  Subject:   Who owns the blocks of the file system, over all runs of `fs_recv_cpio`.

  One `next` field links the free list, the chain of a file and the children of the
  root (block 0).

  * `Layout`, `Owned`: the free list, the chains of the directory entries and the root
    are the 128 blocks, each once;
  * `Filling`: the same while a file is received. Its last block still has the link it
    had on the free list, so its chain goes on through every free block;
  * `Inv`, `step_inv`: what a step preserves if it is no abort in the data of a file
    with blocks left (`CleanInput`);
  * **results**: `blocks_owned`, over all runs of such steps; `abort_owned_iff`, an
    abort in the data leaves the blocks owned exactly when none was free;
    `frames_kept`, a frame handed out stays so.
-/
import LsePc.Bios.Turns
import LsePc.Lib.Transition
import Mathlib.Data.List.Perm.Basic
import Mathlib.Data.List.Range

namespace LsePc.Bios

open LsePc.Lib

/-! ## 1. Ownership -/

/-- A directory entry: its first block and the others. -/
abbrev Entry := Nat × List Nat

/-- The blocks of an entry, in the order of its chain. -/
def Entry.blocks (e : Entry) : List Nat := e.1 :: e.2

/-- The free list, the entries of the root in order, and nothing else. -/
structure Layout (s : FsState) (free : List Nat) (files : List Entry) : Prop where
  freeList : Chain 0 s.next s.firstFreeBlock free
  dir : Chain 0 s.dnext (s.next 0) (files.map Prod.fst)
  entry : ∀ e ∈ files, Chain 0 s.next e.1 e.blocks
  all : (0 :: free ++ files.flatMap Entry.blocks).Perm (List.range FS_NB_BLOCKS)

/-- **Every block has one owner**: the free list, one directory entry, or the root. -/
def Owned (s : FsState) : Prop := ∃ free files, Layout s free files

/-- A file is received into its last block `b`. The chain of its entry `e` runs on into
    the free list. -/
structure Filling (s : FsState) (b : Nat) (free : List Nat) (e : Entry) (files : List Entry) :
    Prop where
  freeList : Chain 0 s.next s.firstFreeBlock free
  dir : Chain 0 s.dnext (s.next 0) ((e :: files).map Prod.fst)
  entry : ∀ e' ∈ files, Chain 0 s.next e'.1 e'.blocks
  opened : Chain 0 s.next e.1 (e.blocks ++ free)
  last : ∃ pre, e.blocks = pre ++ [b]
  all : (0 :: free ++ (e :: files).flatMap Entry.blocks).Perm (List.range FS_NB_BLOCKS)

/-- Only the links matter. -/
theorem Layout.of_links {s s' : FsState} {free : List Nat} {files : List Entry}
    (h : Layout s free files) (hf : s'.firstFreeBlock = s.firstFreeBlock)
    (hn : s'.next = s.next) (hd : s'.dnext = s.dnext) : Layout s' free files := by
  refine ⟨?_, ?_, ?_, h.all⟩
  · rw [hf, hn]
    exact h.freeList
  · rw [hd, hn]
    exact h.dir
  · rw [hn]
    exact h.entry

theorem Filling.of_links {s s' : FsState} {b : Nat} {free : List Nat} {e : Entry}
    {files : List Entry} (h : Filling s b free e files)
    (hf : s'.firstFreeBlock = s.firstFreeBlock) (hn : s'.next = s.next)
    (hd : s'.dnext = s.dnext) : Filling s' b free e files := by
  refine ⟨?_, ?_, ?_, ?_, h.last, h.all⟩
  · rw [hf, hn]
    exact h.freeList
  · rw [hd, hn]
    exact h.dir
  · rw [hn]
    exact h.entry
  · rw [hn]
    exact h.opened

theorem Owned.of_links {s s' : FsState} (h : Owned s) (hf : s'.firstFreeBlock = s.firstFreeBlock)
    (hn : s'.next = s.next) (hd : s'.dnext = s.dnext) : Owned s' := by
  obtain ⟨free, files, h⟩ := h
  exact ⟨free, files, h.of_links hf hn hd⟩

/-- **An aborted file**: its entry owns its blocks only if no block was free. -/
theorem Filling.owned_iff {s : FsState} {b : Nat} {free : List Nat} {e : Entry}
    {files : List Entry} (h : Filling s b free e files) : Owned s ↔ s.firstFreeBlock = 0 := by
  constructor
  · intro h
    obtain ⟨free', files', h'⟩ := h
    have hfree := h'.freeList.unique h.freeList
    subst hfree
    cases free' with
    | nil => exact Chain.nil_iff.mp h.freeList
    | cons x free =>
      -- the first entry of the directory goes through the first free block
      have hdir := h'.dir.unique h.dir
      cases files' with
      | nil => cases hdir
      | cons e' files' =>
        have he : e'.1 = e.1 := (List.cons.inj hdir).1
        have hchain := h'.entry e' List.mem_cons_self
        rw [he] at hchain
        have hblocks := hchain.unique h.opened
        have hx : x ∈ e'.blocks := by
          rw [hblocks]
          exact List.mem_append_right _ List.mem_cons_self
        have hnd := h'.all.nodup_iff.mpr List.nodup_range
        rw [List.nodup_append] at hnd
        exact absurd rfl (hnd.2.2 x (by simp) x
          (List.mem_flatMap.mpr ⟨e', List.mem_cons_self, hx⟩))
  · intro h0
    have hnil : free = [] := h.freeList.unique (h0 ▸ .nil)
    subst hnil
    refine ⟨[], e :: files, h.freeList, h.dir, fun e' he' => ?_, h.all⟩
    rcases List.mem_cons.mp he' with rfl | he'
    · have := h.opened
      rwa [List.append_nil] at this
    · exact h.entry e' he'

/-! ## 2. Taking a block, ending a file -/

/-- The first block of a list of free blocks. -/
theorem free_cons {s : FsState} {b : Nat} {free : List Nat}
    (h : Chain 0 s.next s.firstFreeBlock free) (hb : s.firstFreeBlock = b) (h0 : b ≠ 0) :
    ∃ free', free = b :: free' ∧ Chain 0 s.next (s.next b) free' := by
  cases free with
  | nil => exact absurd (hb.symm.trans (Chain.nil_iff.mp h)) h0
  | cons x free =>
    obtain ⟨hx, -, h⟩ := Chain.cons_iff.mp h
    rw [hb] at hx h
    exact ⟨free, by rw [hx], h⟩

/-- A new file takes the first free block. -/
theorem Layout.newEntry {s s' : FsState} {b : Nat} {free : List Nat} {files : List Entry}
    (h : Layout s (b :: free) files) (hf : s'.firstFreeBlock = s.next b)
    (hn : s'.next = Function.update s.next 0 b)
    (hd : s'.dnext = Function.update s.dnext b (s.next 0)) :
    Filling s' b free (b, []) files := by
  obtain ⟨hb, hb0, hfree⟩ := Chain.cons_iff.mp h.freeList
  rw [hb] at hb0 hfree
  have hfree' := hfree.update (v := b) hfree.null_notMem
  have hnd := h.all.nodup_iff.mpr List.nodup_range
  rw [List.nodup_append] at hnd
  have hdir : b ∉ files.map Prod.fst := by
    intro hm
    obtain ⟨e, he, rfl⟩ := List.mem_map.mp hm
    exact hnd.2.2 e.1 (by simp) e.1
      (List.mem_flatMap.mpr ⟨e, he, List.mem_cons_self⟩) rfl
  refine ⟨?_, ?_, fun e he => ?_, ?_, ⟨[], rfl⟩, ?_⟩
  · rw [hf, hn]
    exact hfree'
  · rw [hd, hn, Function.update_self]
    refine .cons hb0 ?_
    rw [Function.update_self]
    exact h.dir.update hdir
  · rw [hn]
    exact (h.entry e he).update (h.entry e he).null_notMem
  · rw [hn]
    refine .cons hb0 ?_
    rw [Function.update_of_ne hb0]
    exact hfree'
  · refine List.Perm.trans ?_ h.all
    rw [List.flatMap_cons]
    have hswap : (b :: 0 :: free ++ files.flatMap Entry.blocks).Perm
        (0 :: b :: free ++ files.flatMap Entry.blocks) := List.Perm.swap 0 b _
    have hmid : (0 :: free ++ b :: files.flatMap Entry.blocks).Perm
        (b :: (0 :: free ++ files.flatMap Entry.blocks)) := List.perm_middle
    exact hmid.trans hswap

/-- The last block of a file, and its link on the free list. -/
theorem Filling.next_last {s : FsState} {b : Nat} {free : List Nat} {e : Entry}
    {files : List Entry} (h : Filling s b free e files) :
    b ≠ 0 ∧ Chain 0 s.next (s.next b) free := by
  obtain ⟨pre, hpre⟩ := h.last
  have ho := h.opened
  rw [hpre, List.append_assoc] at ho
  exact (Chain.cons_iff.mp ho.split).2

/-- A file goes on in the first free block, to which its last block leads already. -/
theorem Filling.grow {s s' : FsState} {b nb : Nat} {free : List Nat} {e : Entry}
    {files : List Entry} (h : Filling s b (nb :: free) e files)
    (hf : s'.firstFreeBlock = s.next nb) (hn : s'.next = Function.update s.next b nb)
    (hd : s'.dnext = s.dnext) : Filling s' nb free (e.1, e.2 ++ [nb]) files := by
  have hlast := (Chain.cons_iff.mp h.next_last.2).1
  have hself : s'.next = s.next := by rw [hn, ← hlast, Function.update_eq_self]
  obtain ⟨hnb, -, hfree⟩ := Chain.cons_iff.mp h.freeList
  refine ⟨?_, ?_, ?_, ?_, ⟨e.blocks, rfl⟩, ?_⟩
  · rw [hf, hself, ← hnb]
    exact hfree
  · rw [hd, hself]
    exact h.dir
  · rw [hself]
    exact h.entry
  · rw [hself]
    have ho := h.opened
    rw [List.append_cons] at ho
    exact ho
  · refine List.Perm.trans ?_ h.all
    rw [List.flatMap_cons, List.flatMap_cons]
    change (0 :: free ++ ((e.blocks ++ [nb]) ++ _)).Perm (0 :: nb :: free ++ (e.blocks ++ _))
    have hmid : (free ++ e.blocks ++ nb :: files.flatMap Entry.blocks).Perm
        (nb :: (free ++ e.blocks ++ files.flatMap Entry.blocks)) := List.perm_middle
    simp only [List.cons_append, List.nil_append, List.perm_cons, List.append_assoc] at hmid ⊢
    exact hmid

/-- The end of a file. -/
theorem Filling.close {s s' : FsState} {b : Nat} {free : List Nat} {e : Entry}
    {files : List Entry} (h : Filling s b free e files)
    (hf : s'.firstFreeBlock = s.firstFreeBlock) (hn : s'.next = Function.update s.next b 0)
    (hd : s'.dnext = s.dnext) : Layout s' free (e :: files) := by
  obtain ⟨pre, hpre⟩ := h.last
  have hnd := h.all.nodup_iff.mpr List.nodup_range
  rw [List.flatMap_cons, hpre, List.nodup_append] at hnd
  obtain ⟨-, hnd', hdisj⟩ := hnd
  have hmem : b ∈ pre ++ [b] ++ files.flatMap Entry.blocks := by simp
  refine ⟨?_, ?_, fun e' he' => ?_, h.all⟩
  · rw [hf, hn]
    exact h.freeList.update fun hb => hdisj b (List.mem_cons_of_mem 0 hb) b hmem rfl
  · rw [hd, hn, Function.update_of_ne h.next_last.1.symm]
    exact h.dir
  · rw [hn]
    rcases List.mem_cons.mp he' with rfl | he'
    · have ho := h.opened
      rw [hpre, List.append_assoc] at ho
      rw [hpre]
      exact ho.cut
    · refine (h.entry e' he').update fun hb => ?_
      exact (List.nodup_append.mp hnd').2.2 b (by simp) b
        (List.mem_flatMap.mpr ⟨e', he', hb⟩) rfl

/-! ## 3. One step -/

/-- What holds while `fs_recv_cpio` waits. -/
def Wait.Inv (s : FsState) : Wait → Prop
  | .magic0 => Owned s
  | .magic1 => Owned s
  | .header _ => Owned s
  | .name _ => Owned s
  | .data b _ _ _ => ∃ free e files, Filling s b free e files

def Inv : Sys → Prop
  | .idle s => Owned s
  | .recv _ w s => w.Inv s
  | .panic _ => True

/-- The input is no abort in the data of a file while blocks are free. -/
def CleanInput (x : Sys) (i : Input) : Prop :=
  ∀ buff b filesize cur k s, x = .recv buff (.data b filesize cur k) s → i = .com1 quitKey →
    s.firstFreeBlock = 0

/-- Before the data of a file nothing is being filled. -/
theorem Wait.inv_iff {s : FsState} {w : Wait} (hw : w.inData = false) : w.Inv s ↔ Owned s := by
  cases w with
  | data b filesize cur i => cases hw
  | magic0 => exact Iff.rfl
  | magic1 => exact Iff.rfl
  | header cur => exact Iff.rfl
  | name i => exact Iff.rfl

theorem chunk_inv {buff b n cur : Nat} {s : FsState} {free : List Nat} {e : Entry}
    {files : List Entry} {y : Sys} (h : Filling s b free e files) (hc : Chunk buff b n cur s y) :
    Inv y := by
  cases hc with
  | panic => trivial
  | data _ _ =>
    exact ⟨free, e, files, h.of_links rfl FsState.giveFrame_next FsState.giveFrame_dnext⟩
  | done _ =>
    exact ⟨free, e :: files, h.close rfl FsState.closeFile_next FsState.closeFile_dnext⟩

theorem turn_inv {buff : Nat} {s : FsState} {w : Wait} {c : UInt8} {y : Sys} (h : w.Inv s)
    (ht : Turn buff s c w y) : Inv y := by
  cases ht with
  | panic => trivial
  | head hw hw' _ _ =>
    exact (Wait.inv_iff hw').mpr (((Wait.inv_iff hw).mp h).of_links rfl rfl rfl)
  | trailer hw => exact ((Wait.inv_iff hw).mp h).of_links rfl rfl rfl
  | @file w _ _ hw hb h0 hc =>
    obtain ⟨free, files, h⟩ := (Wait.inv_iff hw).mp h
    obtain ⟨free', rfl, -⟩ := free_cons h.freeList hb h0
    have hlayout : Layout (s.poke buff w.offset c) _ _ := h.of_links rfl rfl rfl
    exact chunk_inv (hlayout.newEntry rfl FsState.openFile_next FsState.openFile_dnext) hc
  | byte _ _ =>
    obtain ⟨free, e, files, h⟩ := h
    exact ⟨free, e, files, h.of_links rfl rfl rfl⟩
  | @block b _ _ i _ _ _ _ hnb h0 hc =>
    obtain ⟨free, e, files, h⟩ := h
    obtain ⟨free', rfl, -⟩ := free_cons h.freeList hnb h0
    have hfill : Filling (s.poke (s.fs b).data i c) _ _ _ _ := h.of_links rfl rfl rfl
    exact chunk_inv (hfill.grow rfl FsState.nextBlock_next FsState.nextBlock_dnext) hc
  | @last b _ _ i _ =>
    obtain ⟨free, e, files, h⟩ := h
    have hfill : Filling (s.poke (s.fs b).data i c) _ _ _ _ := h.of_links rfl rfl rfl
    exact ⟨free, e :: files, hfill.close rfl FsState.closeFile_next FsState.closeFile_dnext⟩

/-- The end of a session. -/
theorem freeBuff_inv {buff : Nat} {s : FsState} : Inv (freeBuff buff s) ↔ Owned s :=
  ⟨fun h => Owned.of_links h rfl rfl rfl, fun h => Owned.of_links h rfl rfl rfl⟩

/-- **What a step preserves.** -/
theorem step_inv {x y : Sys} {i : Input} (h : Inv x) (hs : Step x i y) (hc : CleanInput x i) :
    Inv y := by
  subst hs
  cases x with
  | idle s =>
    cases i with
    | recvfs =>
      unfold Sys.step fsRecvCpio
      dsimp only
      split
      · trivial
      · exact Owned.of_links h rfl rfl rfl
    | com1 c => exact h
    | com2 c => exact h
  | recv buff w s =>
    cases i with
    | recvfs => exact h
    | com2 c => exact turn_inv h (recvb_turn buff s c w)
    | com1 c =>
      unfold Sys.step
      dsimp only
      split
      · rename_i hq
        rw [freeBuff_inv]
        cases w with
        | data b filesize cur k =>
          obtain ⟨free, e, files, h⟩ := h
          exact h.owned_iff.mpr (hc buff b filesize cur k s rfl (by rw [hq]))
        | magic0 => exact h
        | magic1 => exact h
        | header cur => exact h
        | name i => exact h
      · exact h
  | panic msg => trivial

/-! ## 4. All runs -/

/-- The memory `init_fs` leaves. -/
theorem initFs_eq (fs : Nat → FsBlock) (mem : Nat → Mem) :
    (initFs fs mem).firstFreeBlock = 1 ∧ (initFs fs mem).next 0 = 0 ∧
      (∀ i, 0 < i → i < 127 → (initFs fs mem).next i = i + 1) ∧ (initFs fs mem).next 127 = 0 := by
  have halloc := allocFrame_first (m := initFrames) (f := 2) rfl (by decide) (by decide)
  unfold initFs
  rw [halloc]
  refine ⟨rfl, ?_, fun i h0 hi => ?_, ?_⟩
  · simp [FsState.next, FsState.setBlock]
  · have h1 : i ≠ 0 := by omega
    have h2 : i ≠ 127 := by omega
    have h3 : i < 128 := by omega
    simp [FsState.next, FsState.setBlock, FS_NB_BLOCKS, h1, h2, h3]
  · simp [FsState.next, FsState.setBlock, FS_NB_BLOCKS]

/-- After `init_fs` all blocks but the root are free. -/
theorem layout_initFs (fs : Nat → FsBlock) (mem : Nat → Mem) :
    Layout (initFs fs mem) (List.range' 1 127) [] := by
  obtain ⟨hfirst, hroot, hnext, hlast⟩ := initFs_eq fs mem
  refine ⟨?_, ?_, nofun, ?_⟩
  · rw [hfirst]
    refine Chain.range (n := 128) (fun i h0 hi => hnext i h0 (by omega)) (fun i hi => ?_) 126 1
      Nat.one_pos rfl
    obtain rfl : i = 127 := by omega
    exact hlast
  · rw [hroot]
    exact .nil
  · exact .of_eq (by decide)

theorem reach_inv {x : Sys} (h : Reach Init (Guarded Step CleanInput) x) : Inv x := by
  refine h.invariant (I := Inv) ?_ ?_
  · intro x h
    obtain ⟨fs, mem, rfl⟩ := h
    exact ⟨_, _, layout_initFs fs mem⟩
  · intro x i y hx h
    obtain ⟨hs, hc⟩ := h
    exact step_inv hx hs hc

/-- Keys other than `q`, and all bytes of an archive, are clean. -/
theorem cleanInput_of_ne {x : Sys} {i : Input} (h : i ≠ .com1 quitKey) : CleanInput x i :=
  fun _ _ _ _ _ _ _ hi => absurd hi h

theorem reach_foldl {x : Sys} (h : Reach Init (Guarded Step CleanInput) x) {is : List Input}
    (his : ∀ i ∈ is, i ≠ .com1 quitKey) :
    Reach Init (Guarded Step CleanInput) (is.foldl Sys.step x) := by
  induction is generalizing x with
  | nil => exact h
  | cons i is ih =>
    exact ih (.step h ⟨rfl, cleanInput_of_ne (his i List.mem_cons_self)⟩)
      fun j hj => his j (List.mem_cons_of_mem i hj)

/-- **An abort in the data of a file** leaves every block with one owner exactly when no
    block was free. -/
theorem abort_owned_iff {buff b filesize cur k : Nat} {s : FsState}
    (h : Reach Init (Guarded Step CleanInput) (.recv buff (.data b filesize cur k) s)) :
    Inv ((Sys.recv buff (.data b filesize cur k) s).step (.com1 quitKey)) ↔
      s.firstFreeBlock = 0 := by
  obtain ⟨free, e, files, hfill⟩ := reach_inv h
  rw [← hfill.owned_iff]
  exact freeBuff_inv

/-- The header of a file of one byte, without a name. -/
def oneByteHeader : List UInt8 :=
  [0xC7, 0x71, 0, 0, 0, 0, 0, 0, 0, 0, 0, 0, 0, 0, 0, 0, 0, 0, 0, 0, 1, 0, 0, 0, 1, 0, 0]

/-- A file system in a cleared frame. -/
def blankFs : FsState :=
  initFs (fun _ => { type := 0, flags := 0, dnext := 0, next := 0, size := 0, data := 0
                     name := fun _ => 0 }) fun _ _ => 0

/-- `fs_recv_cpio` at the data of the file. -/
def atData : Sys := (Input.recvfs :: oneByteHeader.map .com2).foldl Sys.step (.idle blankFs)

theorem atData_eq : ∃ s, atData = .recv 3 (.data 1 1 0 0) s ∧ s.firstFreeBlock = 2 := ⟨_, rfl, rfl⟩

theorem atData_reach : Reach Init (Guarded Step CleanInput) atData :=
  reach_foldl (.init ⟨_, _, rfl⟩) (by decide)

/-- **Every block has one owner after every run** in which no key aborts the data of a file
    while blocks are free. -/
theorem blocks_owned {s : FsState} (h : Reach Init (Guarded Step CleanInput) (.idle s)) :
    Owned s := reach_inv h

/-- The file is received, then the session is aborted between two files. -/
theorem blocks_owned_after :
    ∃ s, (atData.step (.com2 0)).step (.com1 quitKey) = .idle s ∧ Owned s := by
  obtain ⟨s, hs⟩ : ∃ s, atData.step (.com2 0) = .recv 3 .magic0 s := ⟨_, rfl⟩
  have hreach : Reach Init (Guarded Step CleanInput) (.recv 3 .magic0 s) :=
    .step atData_reach ⟨hs, cleanInput_of_ne (by decide)⟩
  have hquit : Guarded Step CleanInput (.recv 3 .magic0 s) (.com1 quitKey) (freeBuff 3 s) :=
    ⟨rfl, fun _ _ _ _ _ _ hx _ => by cases hx⟩
  rw [hs]
  exact ⟨_, rfl, blocks_owned (.step hreach hquit)⟩

/-- An abort in the data of the first file: its block leads into the free list. -/
theorem abort_disowns : ∃ s, Reach Init Step (.idle s) ∧ ¬ Owned s := by
  obtain ⟨s, hs, hfree⟩ := atData_eq
  have hreach := atData_reach
  rw [hs] at hreach
  refine ⟨_, .step hreach.of_guarded (show Step _ (.com1 quitKey) (freeBuff 3 s) from rfl),
    fun howned => ?_⟩
  have h0 := (abort_owned_iff hreach).mp howned
  rw [hfree] at h0
  cases h0

/-! ## 5. Frames in use -/

/-- Frames may have been handed out, none has come back. -/
def Grown (m m' : Frames) : Prop :=
  ∀ f, (m'.frames f).refCnt = (m.frames f).refCnt ∨
    (m.frames f).refCnt = 0 ∧ (m'.frames f).refCnt = 1

/-- What `fs_recv_cpio` leaves of the frames `m` on its way to the next byte. -/
def Later (buff : Nat) (m : Frames) : Sys → Prop
  | .idle s => s.frames = freeFrame m buff
  | .recv buff' _ s => buff' = buff ∧ Grown m s.frames
  | .panic _ => True

theorem Grown.refl (m : Frames) : Grown m m := fun _ => .inl rfl

theorem grown_alloc {m m' : Frames} {f : Nat} (h : allocFrame m = some (f, m')) : Grown m m' := by
  obtain ⟨h0, hm⟩ := allocFrame_refCnt h
  intro f'
  rw [hm, Function.update_apply]
  split
  · rename_i e
    subst e
    exact .inr ⟨h0, rfl⟩
  · exact .inl rfl

theorem chunk_later {buff b n cur : Nat} {m : Frames} {s : FsState} {y : Sys}
    (hc : Chunk buff b n cur s y) (hs : s.frames = m) : Later buff m y := by
  subst hs
  cases hc with
  | panic => trivial
  | data _ ha => exact ⟨rfl, grown_alloc ha⟩
  | done _ => exact ⟨rfl, .refl _⟩

theorem turn_later {buff : Nat} {s : FsState} {c : UInt8} {w : Wait} {y : Sys}
    (ht : Turn buff s c w y) : Later buff s.frames y := by
  cases ht with
  | panic => trivial
  | head _ _ _ _ => exact ⟨rfl, .refl _⟩
  | trailer _ => rfl
  | file _ _ _ hc => exact chunk_later hc rfl
  | byte _ _ => exact ⟨rfl, .refl _⟩
  | block _ _ _ _ hc => exact chunk_later hc rfl
  | last _ => exact ⟨rfl, .refl _⟩

/-- The reference counts: the buffer of a session is counted once. -/
def Counted : Sys → Prop
  | .idle s => ∀ f, (s.frames.frames f).refCnt ≤ 2
  | .recv buff _ s => (s.frames.frames buff).refCnt = 1 ∧ ∀ f, (s.frames.frames f).refCnt ≤ 2
  | .panic _ => True

/-- The frames in use. -/
def Sys.uses : Sys → Nat → Prop
  | .idle s, f => (s.frames.frames f).refCnt ≠ 0
  | .recv _ _ s, f => (s.frames.frames f).refCnt ≠ 0
  | .panic _, _ => True

theorem freeFrame_refCnt {m : Frames} {buff : Nat} (h1 : (m.frames buff).refCnt = 1) (f : Nat) :
    ((freeFrame m buff).frames f).refCnt = if f = buff then 2 else (m.frames f).refCnt := by
  change (Function.update m.frames buff _ f).refCnt = _
  rw [Function.update_apply]
  split
  · change ((m.frames buff).refCnt + 1) % 256 = 2
    rw [h1]
  · rfl

theorem Later.counted {buff : Nat} {s : FsState} {w : Wait} {y : Sys} (h : Later buff s.frames y)
    (hc : Counted (.recv buff w s)) :
    Counted y ∧ ∀ f, (s.frames.frames f).refCnt ≠ 0 → y.uses f := by
  obtain ⟨h1, h2⟩ := hc
  cases y with
  | idle s' =>
    have hf := freeFrame_refCnt h1
    change s'.frames = _ at h
    refine ⟨fun f => ?_, fun f hu => ?_⟩
    · rw [h, hf]
      split
      · exact Nat.le_refl 2
      · exact h2 f
    · change (s'.frames.frames f).refCnt ≠ 0
      rw [h, hf]
      split
      · decide
      · exact hu
  | recv buff' w' s' =>
    obtain ⟨rfl, hg⟩ := h
    refine ⟨⟨?_, fun f => ?_⟩, fun f hu => ?_⟩
    · rcases hg buff' with he | ⟨h0, -⟩
      · rw [he, h1]
      · omega
    · have := h2 f
      rcases hg f with he | ⟨-, he⟩ <;> omega
    · change (s'.frames.frames f).refCnt ≠ 0
      rcases hg f with he | ⟨h0, -⟩
      · rwa [he]
      · exact absurd h0 hu
  | panic msg => exact ⟨trivial, fun _ _ => trivial⟩

theorem step_counted {x y : Sys} {i : Input} (h : Counted x) (hs : Step x i y) :
    Counted y ∧ ∀ f, x.uses f → y.uses f := by
  subst hs
  cases x with
  | idle s =>
    cases i with
    | recvfs =>
      unfold Sys.step fsRecvCpio
      dsimp only
      split
      · exact ⟨trivial, fun _ _ => trivial⟩
      · rename_i buff frames hal
        obtain ⟨h0, hm⟩ := allocFrame_refCnt hal
        have hg := grown_alloc hal
        refine ⟨⟨by rw [hm, Function.update_self], fun f => ?_⟩, fun f hu => ?_⟩
        · have : (s.frames.frames f).refCnt ≤ 2 := h f
          change (frames.frames f).refCnt ≤ 2
          rcases hg f with he | ⟨-, he⟩ <;> omega
        · change (frames.frames f).refCnt ≠ 0
          rcases hg f with he | ⟨h0, -⟩
          · rw [he]
            exact hu
          · exact absurd h0 hu
    | com1 c => exact ⟨h, fun _ => id⟩
    | com2 c => exact ⟨h, fun _ => id⟩
  | recv buff w s =>
    cases i with
    | recvfs => exact ⟨h, fun _ => id⟩
    | com2 c => exact (turn_later (recvb_turn buff s c w)).counted h
    | com1 c =>
      unfold Sys.step
      dsimp only
      split
      · exact Later.counted (w := w) (show Later buff s.frames (freeBuff buff s) from rfl) h
      · exact ⟨h, fun _ => id⟩
  | panic msg => exact ⟨trivial, fun _ _ => trivial⟩

theorem reach_counted {x : Sys} (h : Reach Init Step x) : Counted x := by
  refine h.invariant (I := Counted) ?_ fun x i y hx hs => (step_counted hx hs).1
  intro x h
  obtain ⟨fs, mem, rfl⟩ := h
  intro f
  have halloc := allocFrame_first (m := initFrames) (f := 2) rfl (by decide) (by decide)
  unfold initFs
  rw [halloc]
  change (Function.update initFrames.frames 2 _ f).refCnt ≤ 2
  rw [Function.update_apply]
  split
  · decide
  · change (if f = 0 ∨ f = 1 then 1 else 0) ≤ 2
    split <;> omega

/-- **A frame in use is never handed out again**, whatever the run: not the frame of the
    table, not the data of a file, not a buffer that was given back. -/
theorem frames_kept {x y : Sys} {is : List Input} {f : Nat} (h : Reach Init Step x)
    (hp : Path Step x is y) (hf : x.uses f) : y.uses f := by
  have hc := reach_counted h
  clear h
  induction hp with
  | nil => exact hf
  | cons hs _ ih =>
    obtain ⟨hc', huses⟩ := step_counted hc hs
    exact ih (huses f hf) hc'

/-- The buffer of a session that is aborted, and the next session. -/
theorem frames_kept_buffer : atData.uses 3 ∧
    ((atData.step (.com1 quitKey)).step .recvfs).uses 3 ∧
    ∃ s, (atData.step (.com1 quitKey)).step .recvfs = .recv 5 .magic0 s := by
  obtain ⟨s, hs⟩ : ∃ s, (atData.step (.com1 quitKey)).step .recvfs = .recv 5 .magic0 s := ⟨_, rfl⟩
  have huse : atData.uses 3 := by
    change (1 : Nat) ≠ 0
    decide
  have hpath : Path Step atData [.com1 quitKey, .recvfs]
      ((atData.step (.com1 quitKey)).step .recvfs) := .cons rfl (.cons rfl (.nil _))
  exact ⟨huse, frames_kept atData_reach.of_guarded hpath huse, s, hs⟩

end LsePc.Bios
