/-
  File:      LsePc/Bios/Fs.lean
  Subject:   The file system of the BIOS (sw/bios/src/fs.c), the frames it is kept in
             (frame_alloc.c) and the string functions it uses (string.c).

  * `strcmp`, `strncmp`, `strncpy`: string.c on memory read from an address;
  * `Frames`, `allocFrame`, `freeFrame`: frame_alloc.c;
  * `FsBlock`, `FsState`: the table of 128 blocks and the memory. The table fills one
    frame; it is kept apart from the other frames, which `allocFrame` never hands
    out twice. A pointer to a frame is the number of the frame;
  * `fsFind`, `fsGetFileSize`, `fsPrintFile`, `fsFindFreeBlock`, `initFs`;
  * `Sys.step`: `fs_recv_cpio`, which only ever waits in `fs_recvb_cpio`. `Wait` says
    in which of its calls, with the locals that live there; a byte on COM2 takes it to
    the next call, a `q` on COM1 to the end.

  `panic` stops the machine. What these functions print on COM1 is in PrintFile.lean,
  Output.lean and System/Recv.lean, which are written over the states of this file.
-/
import LsePc.Lib.Chain
import Mathlib.Algebra.GroupWithZero.Nat

namespace LsePc.Bios

open LsePc.Lib

/-! ## 1. Strings (string.c) -/

/-- What is read from an address on. -/
abbrev Mem := Nat → UInt8

/-- A C string in memory. -/
def cstr (l : List UInt8) : Mem := fun i => l.getD i 0

/-- `strcmp` with a literal, which a NUL follows. -/
def strcmp (s1 : Mem) : List UInt8 → Int
  | [] => (s1 0).toNat
  | c :: s2 => if s1 0 = c then strcmp (fun i => s1 (i + 1)) s2 else (s1 0).toNat - c.toNat

def strncmp (s1 s2 : Mem) : Nat → Int
  | 0 => 0
  | n + 1 =>
    if s1 0 ≠ s2 0 then (s1 0).toNat - (s2 0).toNat
    else if s1 0 = 0 then 0
    else strncmp (fun i => s1 (i + 1)) (fun i => s2 (i + 1)) n

/-- How far the first loop of `strncpy` goes. -/
def copied (src : Mem) : Nat → Nat
  | 0 => 0
  | n + 1 => if src 0 = 0 then 0 else copied (fun i => src (i + 1)) n + 1

def strncpy (dest src : Mem) (n : Nat) : Mem := fun i =>
  if i < copied src n then src i else if i < n then 0 else dest i

/-! ## 2. Frames (frame_alloc.c) -/

def NB_FRAMES : Nat := 256
def PAGE_SIZE : Nat := 4096

structure Frame where
  refCnt : Nat
  next : Nat
  deriving DecidableEq, Repr, Inhabited

structure Frames where
  firstFreeFrame : Nat
  frames : Nat → Frame

def Frames.next (m : Frames) (i : Nat) : Nat := (m.frames i).next

/-- `None` where the source panics with "No memory available". -/
def allocFrame (m : Frames) : Option (Nat × Frames) :=
  match (walk 0 m.next NB_FRAMES m.firstFreeFrame).find? fun i => (m.frames i).refCnt == 0 with
  | some i =>
    some (i, { firstFreeFrame := m.next i
               frames := Function.update m.frames i
                 { m.frames i with refCnt := ((m.frames i).refCnt + 1) % 256 } })
  | none => none

/-- The usual case: the first frame of the list is free. -/
theorem allocFrame_first {m : Frames} {f : Nat} (hf : m.firstFreeFrame = f) (h0 : f ≠ 0)
    (hr : (m.frames f).refCnt = 0) :
    allocFrame m = some (f, { firstFreeFrame := m.next f
                              frames := Function.update m.frames f
                                { m.frames f with refCnt := 1 } }) := by
  unfold allocFrame NB_FRAMES
  rw [hf, walk, if_neg h0, List.find?_cons_of_pos (by rw [hr]; rfl)]
  dsimp only
  rw [hr]

/-- A frame that is handed out was not in use. -/
theorem allocFrame_refCnt {m m' : Frames} {f : Nat} (h : allocFrame m = some (f, m')) :
    (m.frames f).refCnt = 0 ∧ m'.frames = Function.update m.frames f
      { m.frames f with refCnt := 1 } := by
  unfold allocFrame at h
  split at h
  · rename_i hi
    cases h
    have hb := List.find?_some hi
    have hr : (m.frames f).refCnt = 0 := eq_of_beq hb
    exact ⟨hr, by rw [hr]⟩
  · cases h

/-- The reference count goes up here too. -/
def freeFrame (m : Frames) (f : Nat) : Frames :=
  { firstFreeFrame := f
    frames := Function.update m.frames f
      { refCnt := ((m.frames f).refCnt + 1) % 256, next := m.firstFreeFrame } }

def initFrames : Frames :=
  { firstFreeFrame := 2
    frames := fun i =>
      -- the page directory and the page table of the BIOS
      { refCnt := if i = 0 ∨ i = 1 then 1 else 0, next := (i + 1) % 256 } }

/-! ## 3. Blocks (fs.c) -/

def FS_NB_BLOCKS : Nat := 128
def FS_NAME_SIZE : Nat := 22

def FS_TYPE_FREE : Nat := 0
def FS_TYPE_DIR : Nat := 1
def FS_TYPE_INODE : Nat := 2
def FS_TYPE_DBLK : Nat := 2

def FS_RO : Nat := 0
def FS_RW : Nat := 1

/-- `struct fs_block`; `data` is the number of a frame. -/
structure FsBlock where
  type : Nat
  flags : Nat
  dnext : Nat
  next : Nat
  size : Nat
  data : Nat
  name : Mem

/-- The allocators, the table and the contents of the frames. -/
structure FsState where
  frames : Frames
  firstFreeBlock : Nat
  fs : Nat → FsBlock
  mem : Nat → Mem

namespace FsState

def next (s : FsState) (i : Nat) : Nat := (s.fs i).next
def dnext (s : FsState) (i : Nat) : Nat := (s.fs i).dnext

/-- Assignments to the fields of `fs[b]`. -/
def setBlock (s : FsState) (b : Nat) (g : FsBlock → FsBlock) : FsState :=
  { s with fs := Function.update s.fs b (g (s.fs b)) }

/-- The byte `i` of the frame `f`. -/
def poke (s : FsState) (f i : Nat) (c : UInt8) : FsState :=
  { s with mem := Function.update s.mem f (Function.update (s.mem f) i c) }

end FsState

/-- 0 where there is no such file. -/
def fsFind (s : FsState) (path : Mem) : Nat :=
  ((walk 0 s.dnext NB_FRAMES (s.next 0)).find?
    fun i => strncmp (s.fs i).name path FS_NAME_SIZE == 0).getD 0

def fsGetFileSize (s : FsState) (i : Nat) : Nat :=
  if (s.fs i).type ≠ FS_TYPE_INODE then 0
  else ((walk 0 s.next NB_FRAMES i).map fun j => (s.fs j).size).sum

/-- The bytes the loops of `fs_print_file` print. -/
def fsPrintFile (s : FsState) (d : Nat) : List UInt8 :=
  (walk 0 s.next NB_FRAMES d).flatMap fun j =>
    (List.range (s.fs j).size).map (s.mem (s.fs j).data)

/-- `None` where the source panics with "Not enough free block". -/
def fsFindFreeBlock (s : FsState) : Option (Nat × FsState) :=
  if s.firstFreeBlock = 0 then none
  else some (s.firstFreeBlock, { s with firstFreeBlock := s.next s.firstFreeBlock })

/-- `init_fs` after `init_frames`, in whatever memory. -/
def initFs (fs : Nat → FsBlock) (mem : Nat → Mem) : FsState :=
  match allocFrame initFrames with
  | none => { frames := initFrames, firstFreeBlock := 0, fs := fs, mem := mem }
  | some (_, frames) =>
    let table (i : Nat) : FsBlock :=
      if i < FS_NB_BLOCKS then { fs i with type := FS_TYPE_FREE, next := i + 1, dnext := 0 }
      else fs i
    let s : FsState := { frames := frames, firstFreeBlock := 0, fs := table, mem := mem }
    let s := s.setBlock (FS_NB_BLOCKS - 1) fun x => { x with next := 0 }
    let s := s.setBlock 0 fun x =>
      { x with type := FS_TYPE_DIR, flags := FS_RO, next := 0, size := 0, dnext := 0 }
    { s with firstFreeBlock := 1 }

/-! ## 4. Receiving an archive (`fs_recv_cpio`) -/

def CPIO_MAGIC0 : UInt8 := 0xC7
def CPIO_MAGIC1 : UInt8 := 0x71

/-- `sizeof (struct cpio_hdr)`. -/
def cpioHdrSize : Nat := 26

/-- A `u16` of the header. -/
def u16At (m : Mem) (i : Nat) : Nat := (m i).toNat + 256 * (m (i + 1)).toNat

def cNamesize (hdr : Mem) : Nat := u16At hdr 20
def cFilesize0 (hdr : Mem) : Nat := u16At hdr 22
def cFilesize1 (hdr : Mem) : Nat := u16At hdr 24

/-- "TRAILER!!!". -/
def trailer : List UInt8 := [0x54, 0x52, 0x41, 0x49, 0x4C, 0x45, 0x52, 0x21, 0x21, 0x21]

/-- The call of `fs_recvb_cpio` that `fs_recv_cpio` is in. -/
inductive Wait where
  | magic0
  | magic1
  | header (cur : Nat)
  | name (i : Nat)
  | data (b filesize cur i : Nat)
  deriving DecidableEq, Repr

inductive Sys where
  /-- the shell -/
  | idle (s : FsState)
  /-- `fs_recv_cpio`, with its `buff` -/
  | recv (buff : Nat) (w : Wait) (s : FsState)
  | panic (msg : String)

/-- From the command to the first byte. -/
def fsRecvCpio (s : FsState) : Sys :=
  match allocFrame s.frames with
  | none => .panic "No memory available"
  | some (buff, frames) => .recv buff .magic0 { s with frames := frames }

/-- `free_buff:`. -/
def freeBuff (buff : Nat) (s : FsState) : Sys :=
  .idle { s with frames := freeFrame s.frames buff }

/-- The test of the loop over the data, the frame of the next block, the end of the file. -/
def recvChunk (buff b filesize cur : Nat) (s : FsState) : Sys :=
  if cur < filesize then
    match allocFrame s.frames with
    | none => .panic "No memory available"
    | some (f, frames) =>
      let s := { s with frames := frames }
      let s := s.setBlock b fun x => { x with data := f, size := min PAGE_SIZE (filesize - cur) }
      .recv buff (.data b filesize cur 0) s
  else
    .recv buff .magic0 (s.setBlock b fun x => { x with next := 0 })

/-- After a byte of the data: the inner loop, the next block, the outer loop. -/
def recvData (buff b filesize cur i : Nat) (s : FsState) : Sys :=
  if i < PAGE_SIZE ∧ cur < filesize then .recv buff (.data b filesize cur i) s
  else if cur < filesize then
    match fsFindFreeBlock s with
    | none => .panic "Not enough free block"
    | some (nb, s) =>
      let s := s.setBlock b fun x => { x with next := nb }
      let s := s.setBlock nb fun x => { x with type := FS_TYPE_DBLK }
      recvChunk buff nb filesize cur s
  else recvChunk buff b filesize cur s

/-- After the name: the trailer, or a new file. -/
def recvFile (buff : Nat) (s : FsState) : Sys :=
  let hdr := s.mem buff
  let filename : Mem := fun i => hdr (cpioHdrSize + i)
  if strcmp filename trailer = 0 then freeBuff buff s
  else
    let filesize := (cFilesize0 hdr <<< 16) ||| cFilesize1 hdr
    match fsFindFreeBlock s with
    | none => .panic "Not enough free block"
    | some (b, s) =>
      let s := s.setBlock b fun x =>
        { x with type := FS_TYPE_INODE, flags := FS_RW, dnext := s.next 0 }
      let s := s.setBlock 0 fun x => { x with next := b }
      let s := s.setBlock b fun x =>
        { x with name := strncpy x.name filename (min FS_NAME_SIZE (cNamesize hdr)) }
      recvChunk buff b filesize 0 s

/-- The test of the loop over the name. -/
def recvName (buff i : Nat) (s : FsState) : Sys :=
  if i < cNamesize (s.mem buff) then .recv buff (.name i) s else recvFile buff s

/-- After a byte of the header. -/
def recvHeader (buff cur : Nat) (s : FsState) : Sys :=
  if cur < cpioHdrSize then .recv buff (.header cur) s
  else if PAGE_SIZE < cNamesize (s.mem buff) + cur then .panic "Filename too long"
  else recvName buff 0 s

/-- What `fs_recv_cpio` does with a byte, up to its next call of `fs_recvb_cpio`. -/
def recvb (buff : Nat) (s : FsState) (c : UInt8) : Wait → Sys
  | .magic0 =>
    let s := s.poke buff 0 c
    if s.mem buff 0 ≠ CPIO_MAGIC0 then .recv buff .magic0 s else .recv buff .magic1 s
  | .magic1 =>
    let s := s.poke buff 1 c
    if s.mem buff 1 ≠ CPIO_MAGIC1 then .recv buff .magic0 s else recvHeader buff 2 s
  | .header cur => recvHeader buff (cur + 1) (s.poke buff cur c)
  | .name i => recvName buff (i + 1) (s.poke buff (cpioHdrSize + i) c)
  | .data b filesize cur i =>
    recvData buff b filesize (cur + 1) (i + 1) (s.poke (s.fs b).data i c)

/-- What reaches the BIOS: the command that receives an archive, a key on COM1, a byte
    on COM2. -/
inductive Input where
  | recvfs
  | com1 (c : UInt8)
  | com2 (c : UInt8)
  deriving DecidableEq, Repr

/-- The key that aborts. -/
def quitKey : UInt8 := 0x71

def Sys.step : Sys → Input → Sys
  | .idle s, .recvfs => fsRecvCpio s
  | .idle s, .com1 _ => .idle s
  | .idle s, .com2 _ => .idle s
  | .recv buff w s, .com2 c => recvb buff s c w
  | .recv buff w s, .com1 c => if c = quitKey then freeBuff buff s else .recv buff w s
  | .recv buff w s, .recvfs => .recv buff w s
  | .panic msg, _ => .panic msg

/-- `Sys.step` as a relation. -/
def Step (x : Sys) (i : Input) (y : Sys) : Prop := x.step i = y

/-- The BIOS after `init_fs`. -/
def Init (x : Sys) : Prop := ∃ fs mem, x = .idle (initFs fs mem)

end LsePc.Bios
