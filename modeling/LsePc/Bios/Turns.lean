/-
  File:      LsePc/Bios/Turns.lean
  Subject:   What `fs_recv_cpio` does between two bytes.

  The functions of Fs.lean from one call of `fs_recvb_cpio` to the next follow the control
  flow of the source. Here is what they come to: seven kinds of turn, on four groups of
  assignments. An invariant of the sessions is one case analysis on them.

  * `openFile`, `giveFrame`, `nextBlock`, `closeFile`: the groups of assignments, and what
    each of them leaves of the links;
  * `Chunk`: the test of the loop over the data;
  * `Turn`, `recvb_turn`: what a byte does.
-/
import LsePc.Bios.Fs

namespace LsePc.Bios

open LsePc.Lib

/-! ## 1. Links -/

namespace FsState

variable {s : FsState} {b : Nat} {g : FsBlock → FsBlock}

theorem fs_setBlock : (s.setBlock b g).fs b = g (s.fs b) := Function.update_self ..

theorem fs_setBlock_ne {j : Nat} (hj : j ≠ b) : (s.setBlock b g).fs j = s.fs j :=
  Function.update_of_ne hj ..

/-- An assignment that leaves a field `p` alone. -/
theorem field_setBlock {α : Type} {p : FsBlock → α} (h : ∀ x, p (g x) = p x) (j : Nat) :
    p ((s.setBlock b g).fs j) = p (s.fs j) := by
  change p (Function.update s.fs b (g (s.fs b)) j) = _
  rw [Function.update_apply]
  split
  · rename_i e
    rw [h, e]
  · rfl

theorem next_setBlock (h : ∀ x, (g x).next = x.next) : (s.setBlock b g).next = s.next :=
  funext (field_setBlock h)

theorem next_setNext {v : Nat} (h : ∀ x, (g x).next = v) :
    (s.setBlock b g).next = Function.update s.next b v := by
  funext i
  change (Function.update s.fs b (g (s.fs b)) i).next = _
  rw [Function.update_apply, Function.update_apply]
  split
  · exact h _
  · rfl

theorem dnext_setBlock (h : ∀ x, (g x).dnext = x.dnext) : (s.setBlock b g).dnext = s.dnext :=
  funext (field_setBlock h)

theorem dnext_setDnext {v : Nat} (h : ∀ x, (g x).dnext = v) :
    (s.setBlock b g).dnext = Function.update s.dnext b v := by
  funext i
  change (Function.update s.fs b (g (s.fs b)) i).dnext = _
  rw [Function.update_apply, Function.update_apply]
  split
  · exact h _
  · rfl

/-! ## 2. Groups of assignments -/

/-- The assignments for a new file in its first block, which `fs_find_free_block` has just
    returned; header and name are in the frame `buff`. -/
def openFile (s : FsState) (buff b : Nat) : FsState :=
  let hdr := s.mem buff
  let filename : Mem := fun i => hdr (cpioHdrSize + i)
  let s : FsState := { s with firstFreeBlock := s.next b }
  let s := s.setBlock b fun x =>
    { x with type := FS_TYPE_INODE, flags := FS_RW, dnext := s.next 0 }
  let s := s.setBlock 0 fun x => { x with next := b }
  s.setBlock b fun x =>
    { x with name := strncpy x.name filename (min FS_NAME_SIZE (cNamesize hdr)) }

/-- The frame of a block. -/
def giveFrame (s : FsState) (b f size : Nat) (frames : Frames) : FsState :=
  ({ s with frames := frames } : FsState).setBlock b fun x => { x with data := f, size := size }

/-- The file goes on in the block `nb`, which `fs_find_free_block` has just returned. -/
def nextBlock (s : FsState) (b nb : Nat) : FsState :=
  let s : FsState := { s with firstFreeBlock := s.next nb }
  let s := s.setBlock b fun x => { x with next := nb }
  s.setBlock nb fun x => { x with type := FS_TYPE_DBLK }

/-- The end of a file. -/
def closeFile (s : FsState) (b : Nat) : FsState := s.setBlock b fun x => { x with next := 0 }

variable {buff nb f size : Nat} {frames : Frames}

theorem openFile_next : (s.openFile buff b).next = Function.update s.next 0 b := by
  unfold openFile
  dsimp only
  rw [next_setBlock, next_setNext, next_setBlock]
  · rfl
  all_goals exact fun _ => rfl

theorem openFile_dnext : (s.openFile buff b).dnext = Function.update s.dnext b (s.next 0) := by
  unfold openFile
  dsimp only
  rw [dnext_setBlock, dnext_setBlock, dnext_setDnext]
  · rfl
  all_goals exact fun _ => rfl

theorem giveFrame_next : (s.giveFrame b f size frames).next = s.next :=
  next_setBlock fun _ => rfl

theorem giveFrame_dnext : (s.giveFrame b f size frames).dnext = s.dnext :=
  dnext_setBlock fun _ => rfl

theorem nextBlock_next : (s.nextBlock b nb).next = Function.update s.next b nb := by
  unfold nextBlock
  dsimp only
  rw [next_setBlock, next_setNext]
  · rfl
  all_goals exact fun _ => rfl

theorem nextBlock_dnext : (s.nextBlock b nb).dnext = s.dnext := by
  unfold nextBlock
  dsimp only
  rw [dnext_setBlock, dnext_setBlock]
  · rfl
  all_goals exact fun _ => rfl

/-- All of a block but its link and its type. -/
theorem nextBlock_field {α : Type} {p : FsBlock → α} (hn : ∀ x v, p { x with next := v } = p x)
    (ht : ∀ x v, p { x with type := v } = p x) (j : Nat) :
    p ((s.nextBlock b nb).fs j) = p (s.fs j) := by
  unfold nextBlock
  dsimp only
  rw [field_setBlock (p := p), field_setBlock (p := p)]
  · exact fun x => hn x nb
  · exact fun x => ht x FS_TYPE_DBLK

theorem closeFile_next : (s.closeFile b).next = Function.update s.next b 0 :=
  next_setNext fun _ => rfl

theorem closeFile_dnext : (s.closeFile b).dnext = s.dnext := dnext_setBlock fun _ => rfl

end FsState

theorem fsFindFreeBlock_some {s s' : FsState} {b : Nat} (h : fsFindFreeBlock s = some (b, s')) :
    s.firstFreeBlock = b ∧ b ≠ 0 ∧ s' = { s with firstFreeBlock := s.next b } := by
  unfold fsFindFreeBlock at h
  split at h
  · cases h
  · rename_i h0
    cases h
    exact ⟨rfl, h0, rfl⟩

/-! ## 3. Turns -/

/-- `fs_recv_cpio` is in an entry. -/
def Wait.inEntry : Wait → Bool
  | .magic0 | .magic1 => false
  | .header _ | .name _ | .data .. => true

/-- The data of the file has begun. -/
def Wait.inData : Wait → Bool
  | .data .. => true
  | .magic0 | .magic1 | .header _ | .name _ => false

/-- Where in `buff` the byte goes. -/
def Wait.offset : Wait → Nat
  | .magic0 => 0
  | .magic1 => 1
  | .header cur => cur
  | .name i => cpioHdrSize + i
  | .data .. => 0

/-- How much of the name there is with the byte. -/
def Wait.named : Wait → Nat
  | .name i => i + 1
  | .magic0 | .magic1 | .header _ | .data .. => 0

/-- The file system of the BIOS, unless it has halted. -/
def Sys.state : Sys → Option FsState
  | .idle s => some s
  | .recv _ _ s => some s
  | .panic _ => none

/-- The bytes of a chain of blocks. -/
def contentOf (s : FsState) (bs : List Nat) : List UInt8 :=
  bs.flatMap fun j => (List.range (s.fs j).size).map (s.mem (s.fs j).data)

def sizesOf (s : FsState) (bs : List Nat) : Nat := (bs.map fun j => (s.fs j).size).sum

/-- The size a header declares. -/
def filesizeAt (hdr : Mem) : Nat := (cFilesize0 hdr <<< 16) ||| cFilesize1 hdr

/-- What the loop over the data does with `cur` of `n` bytes received, for the block `b`. -/
inductive Chunk (buff b n cur : Nat) (s : FsState) : Sys → Prop where
  | panic {msg : String} : Chunk buff b n cur s (.panic msg)
  | data {f : Nat} {frames : Frames} (hcur : cur < n)
      (ha : allocFrame s.frames = some (f, frames)) :
      Chunk buff b n cur s
        (.recv buff (.data b n cur 0) (s.giveFrame b f (min PAGE_SIZE (n - cur)) frames))
  | done (hcur : ¬ cur < n) : Chunk buff b n cur s (.recv buff .magic0 (s.closeFile b))

/-- What `fs_recv_cpio` does with the byte `c`, up to its next wait. -/
inductive Turn (buff : Nat) (s : FsState) (c : UInt8) : Wait → Sys → Prop where
  | panic {w : Wait} {msg : String} : Turn buff s c w (.panic msg)
  /-- in the magic, the header or the name -/
  | head {w w' : Wait} (hw : w.inData = false) (hw' : w'.inData = false)
      (hin : w.inEntry = true → w'.inEntry = true)
      (hname : ∀ k, w' = .name k → k = w.named ∧
        k < cNamesize ((s.poke buff w.offset c).mem buff)) :
      Turn buff s c w (.recv buff w' (s.poke buff w.offset c))
  | trailer {w : Wait} (hw : w.inData = false) :
      Turn buff s c w (freeBuff buff (s.poke buff w.offset c))
  /-- the last byte of a name -/
  | file {w : Wait} {b : Nat} {y : Sys} (hw : w.inData = false) (hb : s.firstFreeBlock = b)
      (h0 : b ≠ 0) (h : Chunk buff b (filesizeAt ((s.poke buff w.offset c).mem buff)) 0
        ((s.poke buff w.offset c).openFile buff b) y) : Turn buff s c w y
  /-- a byte of the data that is not the last one of its block -/
  | byte {b n cur i : Nat} (hi : i + 1 < PAGE_SIZE) (hcur : cur + 1 < n) :
      Turn buff s c (.data b n cur i)
        (.recv buff (.data b n (cur + 1) (i + 1)) (s.poke (s.fs b).data i c))
  | block {b n cur i nb : Nat} {y : Sys} (hi : ¬ i + 1 < PAGE_SIZE) (hcur : cur + 1 < n)
      (hnb : s.firstFreeBlock = nb) (h0 : nb ≠ 0)
      (h : Chunk buff nb n (cur + 1) ((s.poke (s.fs b).data i c).nextBlock b nb) y) :
      Turn buff s c (.data b n cur i) y
  | last {b n cur i : Nat} (hcur : ¬ cur + 1 < n) :
      Turn buff s c (.data b n cur i)
        (.recv buff .magic0 ((s.poke (s.fs b).data i c).closeFile b))

section
variable {buff b n cur i : Nat} {s : FsState} {c : UInt8} {w : Wait}

theorem recvChunk_chunk : Chunk buff b n cur s (recvChunk buff b n cur s) := by
  unfold recvChunk
  split
  · rename_i hcur
    split
    · exact .panic
    · rename_i ha
      exact .data hcur ha
  · rename_i hcur
    exact .done hcur

theorem recvFile_turn (hw : w.inData = false) :
    Turn buff s c w (recvFile buff (s.poke buff w.offset c)) := by
  unfold recvFile
  dsimp only
  split
  · exact .trailer hw
  · split
    · exact .panic
    · rename_i hfree
      obtain ⟨hb, h0, rfl⟩ := fsFindFreeBlock_some hfree
      exact .file hw hb h0 recvChunk_chunk

theorem recvName_turn (hw : w.inData = false) :
    Turn buff s c w (recvName buff w.named (s.poke buff w.offset c)) := by
  unfold recvName
  split
  · rename_i hk
    refine .head hw rfl (fun _ => rfl) fun k he => ?_
    cases he
    exact ⟨rfl, hk⟩
  · exact recvFile_turn hw

theorem recvHeader_turn {k : Nat} (hw : w.inData = false) (hk : w.named = 0) :
    Turn buff s c w (recvHeader buff k (s.poke buff w.offset c)) := by
  unfold recvHeader
  split
  · exact .head hw rfl (fun _ => rfl) nofun
  · split
    · exact .panic
    · have hturn := @recvName_turn buff s c w hw
      rwa [hk] at hturn

theorem recvData_turn :
    Turn buff s c (.data b n cur i)
      (recvData buff b n (cur + 1) (i + 1) (s.poke (s.fs b).data i c)) := by
  unfold recvData
  by_cases hcur : cur + 1 < n
  · by_cases hi : i + 1 < PAGE_SIZE
    · rw [if_pos ⟨hi, hcur⟩]
      exact .byte hi hcur
    · rw [if_neg (fun h => hi h.1), if_pos hcur]
      split
      · exact .panic
      · rename_i hfree
        obtain ⟨hnb, h0, rfl⟩ := fsFindFreeBlock_some hfree
        exact .block hi hcur hnb h0 recvChunk_chunk
  · rw [if_neg (fun h => hcur h.2), if_neg hcur, recvChunk, if_neg hcur]
    exact .last hcur

/-- **What a byte does.** -/
theorem recvb_turn (buff : Nat) (s : FsState) (c : UInt8) (w : Wait) :
    Turn buff s c w (recvb buff s c w) := by
  cases w with
  | magic0 =>
    unfold recvb
    dsimp only
    split <;> exact .head rfl rfl nofun nofun
  | magic1 =>
    unfold recvb
    dsimp only
    split
    · exact .head rfl rfl nofun nofun
    · exact recvHeader_turn rfl rfl
  | header cur => exact recvHeader_turn rfl rfl
  | name i => exact recvName_turn rfl
  | data b n cur i => exact recvData_turn

end

end LsePc.Bios
