/-
  File:      LsePc/Bios/Cpio.lean
  Subject:   Loading an archive that `cpio -o` wrote.

  * `CpioFile`, `cpioEntry`, `cpioArchive`: the old binary format, byte by byte, names
    and data padded to an even length;
  * `Received`, `RoundTrips`: every file is found, with its data and its size;
  * the loops of `fs_recv_cpio` on the bytes they wait for (`feed_loop`, `feed_head`);
    the padding of a name is not skipped, so `received` is what a file gets;
  * `Loaded`: the files in the table after some entries; `Loaded.entry`, `load_files`;
  * **result** (`receive_iff`): an archive is loaded right, entry after entry, exactly when
    every file `Survives` in its block: the padding of its name does not show in its
    data, an empty file comes into a block without a size, and no file is called
    TRAILER!!!.
-/
import LsePc.Bios.Ownership
import LsePc.Bios.Strings
import Mathlib.Data.List.GetD

namespace LsePc.Bios

open LsePc.Lib

/-! ## 1. The format -/

/-- A file of an archive; `stat` are the header's fields from `c_dev` to `c_mtime`. -/
structure CpioFile where
  name : List UInt8
  data : List UInt8
  stat : List UInt8
  deriving DecidableEq, Repr

def le16 (n : Nat) : List UInt8 := [UInt8.ofNat n, UInt8.ofNat (n / 256)]

/-- `struct cpio_hdr`; the high half of the file size comes first. -/
def cpioHdr (stat : List UInt8) (namesize filesize : Nat) : List UInt8 :=
  le16 0o070707 ++ stat ++ (le16 namesize ++ le16 (filesize / 65536) ++ le16 (filesize % 65536))

/-- The NUL after an odd number of bytes. -/
def padding (n : Nat) : List UInt8 := if n % 2 = 1 then [0] else []

/-- The header and the name. -/
def cpioHead (f : CpioFile) : List UInt8 :=
  cpioHdr f.stat (f.name.length + 1) f.data.length ++ (f.name ++ [0])

/-- What follows the name. -/
def cpioBody (f : CpioFile) : List UInt8 :=
  padding (f.name.length + 1) ++ f.data ++ padding f.data.length

def cpioEntry (f : CpioFile) : List UInt8 := cpioHead f ++ cpioBody f

/-- The entry that ends an archive. -/
def cpioTrailer (stat : List UInt8) : CpioFile := { name := trailer, data := [], stat := stat }

def cpioArchive (files : List CpioFile) (stat : List UInt8) : List UInt8 :=
  files.flatMap cpioEntry ++ cpioEntry (cpioTrailer stat)

/-- Bytes on COM2, no key on COM1. -/
def Sys.feed (x : Sys) (l : List UInt8) : Sys := l.foldl (fun x c => x.step (.com2 c)) x

/-- Every file is found, with its data and its size. -/
def Received (files : List CpioFile) (s : FsState) : Prop :=
  ∀ f ∈ files, fsFind s (cstr f.name) ≠ 0 ∧ fsPrintFile s (fsFind s (cstr f.name)) = f.data ∧
    fsGetFileSize s (fsFind s (cstr f.name)) = f.data.length

/-- `fs_recv_cpio` on an archive, from a fresh file system in the given memory. -/
def RoundTrips (files : List CpioFile) (stat : List UInt8) (fs : Nat → FsBlock)
    (mem : Nat → Mem) : Prop :=
  ∃ s, (fsRecvCpio (initFs fs mem)).feed (cpioArchive files stat) = .idle s ∧ Received files s

/-- The blocks a file of `n` bytes takes. -/
def nblocks (n : Nat) : Nat := max 1 ((n + 4095) / 4096)

/-- What `cpio -o` may be given: names of 1 to 21 bytes without a NUL, all different, and
    files that fit. The 127 blocks take fewer frames than are free. -/
structure Packed (files : List CpioFile) (stat : List UInt8) : Prop where
  names : ∀ f ∈ files, 0 ∉ f.name ∧ 1 ≤ f.name.length ∧ f.name.length ≤ 21
  nodup : (files.map CpioFile.name).Nodup
  fits : (files.map fun f => nblocks f.data.length).sum ≤ 127
  stats : ∀ f ∈ files, f.stat.length = 18
  stat : stat.length = 18

/-- The first block of each file, if the blocks from `b` on are free. -/
def slots : Nat → List CpioFile → List (Nat × CpioFile)
  | _, [] => []
  | b, f :: files => (b, f) :: slots (b + nblocks f.data.length) files

/-- The file `f` survives in a block of size `n`: it is not taken for the end of the archive,
    the padding of its name makes no difference to its data, and it sets the size. -/
structure Survives (n : Nat) (f : CpioFile) : Prop where
  name : f.name ≠ trailer
  data : f.name.length % 2 = 1 ∨ ∀ c ∈ f.data, c = 0
  size : f.data = [] → n = 0

/-- After the file the next magic is seen: no byte `CPIO_MAGIC0` is left of it before that. -/
def InStep (f : CpioFile) : Prop :=
  f.name.length % 2 = 1 ∨ f.data.length % 2 = 1 ∨ f.data.getLast? ≠ some CPIO_MAGIC0

/-! ## 3. Bytes into a frame -/

/-- The bytes `l` at `i` of the frame `f`. -/
def FsState.pokes (s : FsState) (f i : Nat) (l : List UInt8) : FsState :=
  { s with mem := Function.update s.mem f fun j =>
      if i ≤ j ∧ j < i + l.length then l.getD (j - i) 0 else s.mem f j }

section
variable {s : FsState} {f i : Nat} {l : List UInt8}

theorem pokes_mem (j : Nat) : (s.pokes f i l).mem f j =
    if i ≤ j ∧ j < i + l.length then l.getD (j - i) 0 else s.mem f j := by
  exact congrFun (Function.update_self (f := s.mem) ..) j

theorem pokes_mem_ne {f' : Nat} (h : f' ≠ f) : (s.pokes f i l).mem f' = s.mem f' :=
  Function.update_of_ne h ..

theorem pokes_append (l' : List UInt8) :
    s.pokes f i (l ++ l') = (s.pokes f i l).pokes f (i + l.length) l' := by
  have hmem : (s.pokes f i (l ++ l')).mem = ((s.pokes f i l).pokes f (i + l.length) l').mem := by
    funext f' j
    by_cases hf : f' = f
    · subst hf
      rw [pokes_mem, pokes_mem, pokes_mem, List.length_append]
      by_cases h1 : i ≤ j ∧ j < i + l.length
      · rw [if_pos (by omega), if_neg (by omega), if_pos h1, List.getD_append _ _ _ _ (by omega)]
      · by_cases h2 : i + l.length ≤ j ∧ j < i + l.length + l'.length
        · rw [if_pos (by omega), if_pos h2, List.getD_append_right _ _ _ _ (by omega)]
          congr 1
          omega
        · rw [if_neg (by omega), if_neg h2, if_neg h1]
    · rw [pokes_mem_ne hf, pokes_mem_ne hf, pokes_mem_ne hf]
  unfold FsState.pokes at hmem ⊢
  simp only [FsState.mk.injEq, true_and] at hmem ⊢
  exact hmem

theorem poke_eq (c : UInt8) : s.poke f i c = s.pokes f i [c] := by
  unfold FsState.poke FsState.pokes
  congr 2
  funext j
  rw [Function.update_apply]
  by_cases h : j = i
  · subst h
    rw [if_pos rfl, if_pos (by simp)]
    simp
  · rw [if_neg h, if_neg (by simp; omega)]

theorem pokes_cons (c : UInt8) : s.pokes f i (c :: l) = (s.poke f i c).pokes f (i + 1) l := by
  rw [poke_eq, ← List.singleton_append, pokes_append]
  rfl

end

/-! ## 4. The loops -/

@[simp] theorem feed_nil (x : Sys) : x.feed [] = x := rfl

theorem feed_cons (x : Sys) (c : UInt8) (l : List UInt8) :
    x.feed (c :: l) = (x.step (.com2 c)).feed l := rfl

theorem feed_append (x : Sys) (l l' : List UInt8) : x.feed (l ++ l') = (x.feed l).feed l' :=
  List.foldl_append ..

theorem feed_idle (s : FsState) (l : List UInt8) : (Sys.idle s).feed l = .idle s := by
  induction l with
  | nil => rfl
  | cons c l ih => exact ih

/-- **A loop of `fs_recvb_cpio` into a frame.** In its turn `i` the loop waits in `w i` for
    the byte at `off + i`; `k i` is its test. Up to the turn `m` the test succeeds. -/
theorem feed_loop (buff f off m : Nat) (w : Nat → Wait) (k : Nat → FsState → Sys)
    {P : FsState → Prop} (hP : ∀ s i c, P s → P (s.poke f (off + i) c))
    (hw : ∀ s i c, P s → recvb buff s c (w i) = k (i + 1) (s.poke f (off + i) c))
    (hk : ∀ s i, P s → i < m → k i s = .recv buff (w i) s) :
    ∀ (l : List UInt8) (i : Nat) (s : FsState), P s → l ≠ [] → i + l.length ≤ m →
      (Sys.recv buff (w i) s).feed l = k (i + l.length) (s.pokes f (off + i) l)
  | [], _, _, _, hl, _ => absurd rfl hl
  | [c], i, s, hs, _, _ => by
    rw [← poke_eq]
    exact hw s i c hs
  | c :: c' :: l, i, s, hs, _, hm => by
    have hs' := hP s i c hs
    simp only [List.length_cons] at hm ⊢
    rw [feed_cons, Sys.step, hw s i c hs, hk _ _ hs' (by omega),
      feed_loop buff f off m w k hP hw hk (c' :: l) (i + 1) _ hs' nofun
        (by simp only [List.length_cons]; omega),
      pokes_cons (l := c' :: l)]
    simp only [List.length_cons]
    congr 1
    omega

/-- Bytes between two entries are skipped. -/
theorem feed_skip {buff : Nat} (l : List UInt8) (hl : CPIO_MAGIC0 ∉ l) :
    ∀ s, ∃ m, (Sys.recv buff .magic0 s).feed l =
      .recv buff .magic0 { s with mem := Function.update s.mem buff m } := by
  induction l with
  | nil =>
    intro s
    exact ⟨s.mem buff, by rw [Function.update_eq_self]; rfl⟩
  | cons c l ih =>
    intro s
    have hc : c ≠ CPIO_MAGIC0 := fun e => hl (e ▸ List.mem_cons_self)
    obtain ⟨m, hm⟩ := ih (fun h => hl (List.mem_cons_of_mem _ h)) (s.poke buff 0 c)
    refine ⟨m, ?_⟩
    rw [feed_cons]
    have hstep : (Sys.recv buff .magic0 s).step (.com2 c) =
        .recv buff .magic0 (s.poke buff 0 c) := by
      simp [Sys.step, recvb, FsState.poke, hc]
    rw [hstep, hm]
    simp [FsState.poke]

/-! ## 5. The header and the name -/

theorem u16_le16 {n : Nat} (h : n < 65536) :
    (UInt8.ofNat n).toNat + 256 * (UInt8.ofNat (n / 256)).toNat = n := by
  simp only [UInt8.toNat_ofNat']
  omega

section
variable {stat : List UInt8} {namesize filesize : Nat}

/-- The fields of a header in memory. -/
theorem cpioHdr_fields {m : Mem} (hstat : stat.length = 18) (hn : namesize < 65536)
    (hf : filesize < 2 ^ 32)
    (h : ∀ j < 26, m j = (cpioHdr stat namesize filesize).getD j 0) :
    cNamesize m = namesize ∧ (cFilesize0 m <<< 16) ||| cFilesize1 m = filesize := by
  have hlen : (le16 0o070707 ++ stat).length = 20 := by simp [le16, hstat]
  have hget : ∀ j < 6, m (20 + j) =
      (le16 namesize ++ le16 (filesize / 65536) ++ le16 (filesize % 65536)).getD j 0 := by
    intro j hj
    rw [h (20 + j) (by omega), cpioHdr, List.getD_append_right _ _ _ _ (by omega), hlen,
      Nat.add_sub_cancel_left]
  have h0 := hget 0 (by omega)
  have h1 := hget 1 (by omega)
  have h2 := hget 2 (by omega)
  have h3 := hget 3 (by omega)
  have h4 := hget 4 (by omega)
  have h5 := hget 5 (by omega)
  have hlow : filesize % 65536 < 2 ^ 16 := by omega
  refine ⟨?_, ?_⟩
  · change (m (20 + 0)).toNat + 256 * (m (20 + 1)).toNat = _
    rw [h0, h1]
    exact u16_le16 hn
  · have e0 : cFilesize0 m = filesize / 65536 := by
      change (m (20 + 2)).toNat + 256 * (m (20 + 3)).toNat = _
      rw [h2, h3]
      exact u16_le16 (by omega)
    have e1 : cFilesize1 m = filesize % 65536 := by
      change (m (20 + 4)).toNat + 256 * (m (20 + 5)).toNat = _
      rw [h4, h5]
      exact u16_le16 (by omega)
    rw [e0, e1, ← Nat.shiftLeft_add_eq_or_of_lt hlow, Nat.shiftLeft_eq]
    omega

theorem cpioHdr_length (hstat : stat.length = 18) (namesize filesize : Nat) :
    (cpioHdr stat namesize filesize).length = 26 := by
  simp [cpioHdr, le16, hstat]

end

section
variable {f : CpioFile} {buff : Nat} {s : FsState}

/-- The buffer after the header and the name. -/
theorem cpioHead_fields (buff : Nat) (s : FsState) (hstat : f.stat.length = 18)
    (hname : f.name.length ≤ 21) (hdata : f.data.length < 2 ^ 32) :
    let m := (s.pokes buff 0 (cpioHead f)).mem buff
    cNamesize m = f.name.length + 1 ∧
      (cFilesize0 m <<< 16) ||| cFilesize1 m = f.data.length ∧
      Holds (fun i => m (cpioHdrSize + i)) f.name := by
  intro m
  have hlen := cpioHdr_length hstat (f.name.length + 1) f.data.length
  have hhead : (cpioHead f).length = 26 + (f.name.length + 1) := by
    rw [cpioHead, List.length_append, hlen, List.length_append]
    rfl
  have hm : ∀ j, j < 26 + (f.name.length + 1) → m j = (cpioHead f).getD j 0 := by
    intro j hj
    exact (pokes_mem j).trans (if_pos (by rw [hhead]; omega))
  have hns' : f.name.length + 1 < 65536 := by omega
  obtain ⟨hns, hfs⟩ := cpioHdr_fields (m := m) hstat hns' hdata fun j hj => by
    rw [hm j (by omega), cpioHead, List.getD_append _ _ _ _ (by omega)]
  refine ⟨hns, hfs, fun i hi => ?_⟩
  change m (26 + i) = _
  rw [hm _ (by omega), cpioHead, List.getD_append_right _ _ _ _ (by omega), hlen,
    Nat.add_sub_cancel_left]
  by_cases h : i < f.name.length
  · rw [List.getD_append _ _ _ _ h]
    rfl
  · obtain rfl : i = f.name.length := by omega
    rw [List.getD_append_right _ _ _ _ (Nat.le_refl _)]
    simp [cstr]

/-- **The header and the name of an entry.** -/
theorem feed_head (hstat : f.stat.length = 18) (hname : f.name.length ≤ 21)
    (hdata : f.data.length < 2 ^ 32) :
    (Sys.recv buff .magic0 s).feed (cpioHead f) = recvFile buff (s.pokes buff 0 (cpioHead f)) := by
  have hlen := cpioHdr_length hstat (f.name.length + 1) f.data.length
  -- the magic
  obtain ⟨rest, hrest⟩ : ∃ rest, cpioHdr f.stat (f.name.length + 1) f.data.length =
      CPIO_MAGIC0 :: CPIO_MAGIC1 :: rest := ⟨_, rfl⟩
  rw [hrest] at hlen
  simp only [List.length_cons] at hlen
  have hmagic : ∀ l, (Sys.recv buff .magic0 s).feed (CPIO_MAGIC0 :: CPIO_MAGIC1 :: l) =
      (Sys.recv buff (.header 2) (s.pokes buff 0 [CPIO_MAGIC0, CPIO_MAGIC1])).feed l := by
    intro l
    rw [pokes_cons, ← poke_eq, feed_cons, feed_cons]
    congr 1
    simp [Sys.step, recvb, FsState.poke, recvHeader, cpioHdrSize]
  -- the rest of the header
  have hheader : (Sys.recv buff (.header 2) (s.pokes buff 0 [CPIO_MAGIC0, CPIO_MAGIC1])).feed rest =
      recvHeader buff 26 (s.pokes buff 0 (CPIO_MAGIC0 :: CPIO_MAGIC1 :: rest)) := by
    have h := feed_loop buff buff 0 26 .header (recvHeader buff) (P := fun _ => True)
      (fun _ _ _ _ => trivial) (fun s i c _ => by rw [Nat.zero_add]; rfl)
      (fun s i _ hi => by rw [recvHeader, cpioHdrSize, if_pos hi])
      rest 2 (s.pokes buff 0 [CPIO_MAGIC0, CPIO_MAGIC1]) trivial
      (by rintro rfl; cases hlen) (by omega)
    rw [h, Nat.zero_add, show 2 + rest.length = 26 by omega]
    congr 1
    exact (pokes_append (l := [CPIO_MAGIC0, CPIO_MAGIC1]) rest).symm
  -- the name, whose length stays in the header
  have hns : ∀ s' : FsState, (∀ j < 26, s'.mem buff j =
      (cpioHdr f.stat (f.name.length + 1) f.data.length).getD j 0) →
      cNamesize (s'.mem buff) = f.name.length + 1 :=
    fun s' h => (cpioHdr_fields hstat (by omega) hdata h).1
  have hname : ∀ s' : FsState, (∀ j < 26, s'.mem buff j =
      (cpioHdr f.stat (f.name.length + 1) f.data.length).getD j 0) →
      (recvHeader buff 26 s').feed (f.name ++ [0]) =
        recvFile buff (s'.pokes buff 26 (f.name ++ [0])) := by
    intro s' h
    have hloop := feed_loop buff buff 26 (f.name.length + 1) .name (recvName buff)
      (P := fun s' => ∀ j < 26, s'.mem buff j =
        (cpioHdr f.stat (f.name.length + 1) f.data.length).getD j 0)
      (fun s i c hs j hj => by
        rw [poke_eq, pokes_mem, if_neg (by omega)]
        exact hs j hj)
      (fun s i c _ => rfl)
      (fun s i hs hi => by rw [recvName, hns s hs, if_pos hi])
      (f.name ++ [0]) 0 s' h (by simp) (by simp)
    have hstart : recvHeader buff 26 s' = .recv buff (.name 0) s' := by
      rw [recvHeader, cpioHdrSize, if_neg (Nat.lt_irrefl 26), hns s' h, PAGE_SIZE,
        if_neg (by omega), recvName, hns s' h, if_pos (Nat.succ_pos _)]
    rw [hstart, hloop, recvName, if_neg]
    rw [hns]
    · simp
    · intro j hj
      rw [pokes_mem, if_neg (by omega)]
      exact h j hj
  rw [cpioHead, hrest, feed_append, hmagic, hheader, ← hrest, hname,
    pokes_append (l := cpioHdr f.stat (f.name.length + 1) f.data.length), cpioHdr_length hstat]
  · intro j hj
    rw [pokes_mem, if_pos ⟨Nat.zero_le j, by rw [cpioHdr_length hstat]; omega⟩, Nat.sub_zero]

end

/-! ## 6. Files in the table -/

/-- What `fs_recv_cpio` takes for the data of a file, and what it leaves in the stream. -/
def received (f : CpioFile) : List UInt8 := (cpioBody f).take f.data.length
def leftover (f : CpioFile) : List UInt8 := (cpioBody f).drop f.data.length

/-- All of a block but its links. -/
def FsBlock.body (x : FsBlock) : Nat × Nat × Nat × Mem := (x.type, x.size, x.data, x.name)

/-- The frames from `k` on have not been handed out. -/
structure FramesAt (m : Frames) (k : Nat) : Prop where
  first : m.firstFreeFrame = k
  rest : ∀ i, k ≤ i → i < 256 → (m.frames i).refCnt = 0 ∧ m.next i = (i + 1) % 256

theorem FramesAt.alloc {m : Frames} {k : Nat} (h : FramesAt m k) (h0 : 0 < k) (hk : k < 255) :
    ∃ m', allocFrame m = some (k, m') ∧ FramesAt m' (k + 1) := by
  obtain ⟨hr, hn⟩ := h.rest k (Nat.le_refl k) (by omega)
  refine ⟨_, allocFrame_first h.first (Nat.ne_of_gt h0) hr, ?_, fun i hi hi' => ?_⟩
  · exact hn.trans (Nat.mod_eq_of_lt (by omega))
  · have hne : i ≠ k := by omega
    obtain ⟨hr', hn'⟩ := h.rest i (by omega) hi'
    unfold Frames.next at hn' ⊢
    dsimp only
    rw [Function.update_of_ne hne]
    exact ⟨hr', hn'⟩

/-- The file `p.2` in the entry `e`, from the block `p.1` on: its frames are those between
    the buffer and `k`. An empty file keeps the size `σ` its block had before. -/
structure Stores (σ : Nat → Nat) (buff k : Nat) (s : FsState) (e : Entry)
    (p : Nat × CpioFile) : Prop where
  first : e.1 = p.1
  type : (s.fs e.1).type = FS_TYPE_INODE
  name : Holds (s.fs e.1).name p.2.name
  data : p.2.data ≠ [] → contentOf s e.blocks = received p.2 ∧
    sizesOf s e.blocks = p.2.data.length ∧
    ∀ b ∈ e.blocks, buff < (s.fs b).data ∧ (s.fs b).data < k
  stale : p.2.data = [] → e.2 = [] ∧ (s.fs e.1).size = σ e.1

/-- Nothing but links has changed outside of `B`, no byte of the frames up to `k`. -/
structure Kept (buff k : Nat) (B : List Nat) (s s' : FsState) : Prop where
  body : ∀ x, x ∉ B → (s'.fs x).body = (s.fs x).body
  mem : ∀ g, buff < g → g < k → s'.mem g = s.mem g

section
variable {σ : Nat → Nat} {buff k k' : Nat} {B bs free : List Nat} {s s' s'' : FsState} {e : Entry}
  {f : CpioFile} {p : Nat × CpioFile} {files : List Entry} {done : List (Nat × CpioFile)}
  {b : Nat} {g : FsBlock → FsBlock}

theorem body_eq {x y : FsBlock} (h : x.body = y.body) :
    x.type = y.type ∧ x.size = y.size ∧ x.data = y.data ∧ x.name = y.name := by
  simpa [FsBlock.body] using h

theorem Kept.trans (h : Kept buff k B s s') (h' : Kept buff k B s' s'') : Kept buff k B s s'' :=
  ⟨fun x hx => (h'.body x hx).trans (h.body x hx),
    fun g hg hk => (h'.mem g hg hk).trans (h.mem g hg hk)⟩

theorem kept_setBlock : Kept buff k [b] s (s.setBlock b g) := by
  refine ⟨fun x hx => ?_, fun _ _ _ => rfl⟩
  have hne : x ≠ b := fun e => hx (e ▸ List.mem_singleton_self x)
  change (Function.update s.fs b _ x).body = _
  rw [Function.update_of_ne hne]

/-- A link is written. -/
theorem kept_setLink (h : ∀ x, (g x).body = x.body) : Kept buff k B s (s.setBlock b g) := by
  refine ⟨fun x _ => ?_, fun _ _ _ => rfl⟩
  change (Function.update s.fs b _ x).body = _
  rw [Function.update_apply]
  split
  · rename_i e
    rw [h, e]
  · rfl

theorem kept_nextBlock {nb : Nat} : Kept buff k [nb] s (s.nextBlock b nb) := by
  have hlink : Kept buff k [nb] { s with firstFreeBlock := s.next nb }
      (({ s with firstFreeBlock := s.next nb } : FsState).setBlock b fun x =>
        { x with next := nb }) := kept_setLink fun _ => rfl
  have hkept := hlink.trans (kept_setBlock (g := fun x => { x with type := FS_TYPE_DBLK }))
  exact ⟨hkept.body, hkept.mem⟩

theorem kept_pokes {f' i : Nat} {l : List UInt8} (hf : f' ≤ buff ∨ k ≤ f') :
    Kept buff k B s (s.pokes f' i l) :=
  ⟨fun _ _ => rfl, fun g hg hk => pokes_mem_ne (by omega)⟩

theorem Kept.content (h : Kept buff k B s s') (hB : ∀ x ∈ bs, x ∉ B)
    (hd : ∀ x ∈ bs, buff < (s.fs x).data ∧ (s.fs x).data < k) :
    contentOf s' bs = contentOf s bs := by
  unfold contentOf
  refine List.flatMap_congr fun x hx => ?_
  obtain ⟨-, hs, hdata, -⟩ := body_eq (h.body x (hB x hx))
  rw [hs, hdata, h.mem _ (hd x hx).1 (hd x hx).2]

theorem Kept.sizes (h : Kept buff k B s s') (hB : ∀ x ∈ bs, x ∉ B) :
    sizesOf s' bs = sizesOf s bs := by
  unfold sizesOf
  refine congrArg List.sum (List.map_congr_left fun x hx => ?_)
  exact (body_eq (h.body x (hB x hx))).2.1

theorem Stores.kept (h : Stores σ buff k s e p) (hk : Kept buff k B s s')
    (hB : ∀ x ∈ e.blocks, x ∉ B) (hle : k ≤ k') : Stores σ buff k' s' e p := by
  obtain ⟨ht, hs, -, hn⟩ := body_eq (hk.body e.1 (hB e.1 List.mem_cons_self))
  refine ⟨h.first, ht.trans h.type, hn ▸ h.name, fun hne => ?_, fun h0 => ?_⟩
  · obtain ⟨hc, hz, hd⟩ := h.data hne
    refine ⟨(hk.content hB hd).trans hc, (hk.sizes hB).trans hz, fun x hx => ?_⟩
    obtain ⟨-, -, hdata, -⟩ := body_eq (hk.body x (hB x hx))
    rw [hdata]
    exact ⟨(hd x hx).1, Nat.lt_of_lt_of_le (hd x hx).2 hle⟩
  · exact ⟨(h.stale h0).1, hs.trans (h.stale h0).2⟩

theorem stores_kept (h : List.Forall₂ (Stores σ buff k s) files done) (hk : Kept buff k B s s')
    (hB : ∀ e ∈ files, ∀ x ∈ e.blocks, x ∉ B) (hle : k ≤ k') :
    List.Forall₂ (Stores σ buff k' s') files done := by
  induction h with
  | nil => exact .nil
  | cons hst _ ih =>
    exact .cons (hst.kept hk (hB _ List.mem_cons_self) hle)
      (ih fun e he => hB e (List.mem_cons_of_mem _ he))

/-- The table between two entries: the files `done` stand in `files`, the last one first. -/
structure Loaded (σ : Nat → Nat) (buff k : Nat) (s : FsState) (free : List Nat)
    (files : List Entry) (done : List (Nat × CpioFile)) : Prop where
  layout : Layout s free files
  frames : FramesAt s.frames k
  buff_lt : buff < k
  stale : ∀ x ∈ free, (s.fs x).size = σ x
  stores : List.Forall₂ (Stores σ buff k s) files done

/-! ## 7. A file, block by block -/

/-- A file on its way into the entry `e`: the blocks `set` have their data, `got` so far. -/
structure Receiving (σ : Nat → Nat) (buff k b : Nat) (s : FsState) (free : List Nat) (e : Entry)
    (files : List Entry) (done : List (Nat × CpioFile)) (f : CpioFile) (set : List Nat)
    (got : List UInt8) : Prop where
  filling : Filling s b free e files
  frames : FramesAt s.frames k
  buff_lt : buff < k
  stale : ∀ x ∈ free, (s.fs x).size = σ x
  stores : List.Forall₂ (Stores σ buff k s) files done
  type : (s.fs e.1).type = FS_TYPE_INODE
  name : Holds (s.fs e.1).name f.name
  content : contentOf s set = got
  sizes : sizesOf s set = got.length
  data : ∀ x ∈ set, buff < (s.fs x).data ∧ (s.fs x).data < k

/-- The owner of a block is one. -/
theorem Filling.disjoint {s : FsState} {b : Nat} {free : List Nat} {e : Entry}
    {files : List Entry} (h : Filling s b free e files) :
    (∀ x ∈ free, x ∉ e.blocks ∧ ∀ e' ∈ files, x ∉ e'.blocks) ∧
      ∀ x ∈ e.blocks, ∀ e' ∈ files, x ∉ e'.blocks := by
  have hnd := h.all.nodup_iff.mpr List.nodup_range
  rw [List.flatMap_cons, List.nodup_append] at hnd
  obtain ⟨-, hnd', hdisj⟩ := hnd
  have hmem : ∀ x, ∀ e' ∈ files, x ∈ e'.blocks → x ∈ files.flatMap Entry.blocks :=
    fun x e' he' hx => List.mem_flatMap.mpr ⟨e', he', hx⟩
  refine ⟨fun x hx => ⟨fun he => ?_, fun e' he' hx' => ?_⟩, fun x hx e' he' hx' => ?_⟩
  · exact hdisj x (List.mem_cons_of_mem 0 hx) x (List.mem_append_left _ he) rfl
  · exact hdisj x (List.mem_cons_of_mem 0 hx) x (List.mem_append_right _ (hmem x e' he' hx')) rfl
  · exact (List.nodup_append.mp hnd').2.2 x hx x (hmem x e' he' hx') rfl

/-- The chain of a file being received repeats no block. -/
theorem Filling.nodup {s : FsState} {b : Nat} {free : List Nat} {e : Entry}
    {files : List Entry} (h : Filling s b free e files) : e.blocks.Nodup :=
  (List.nodup_append.mp h.opened.nodup).1

/-- The block `b` holds the bytes `c`, in the frame `k`; nothing else has changed. -/
structure Filled (buff k b : Nat) (c : List UInt8) (s s' : FsState) : Prop where
  kept : Kept buff k [b] s s'
  frames : FramesAt s'.frames (k + 1)
  firstFree : s'.firstFreeBlock = s.firstFreeBlock
  next : s'.next = s.next
  dnext : s'.dnext = s.dnext
  data : (s'.fs b).data = k
  size : (s'.fs b).size = c.length
  head : (s'.fs b).type = (s.fs b).type ∧ (s'.fs b).name = (s.fs b).name
  bytes : (List.range c.length).map (s'.mem k) = c

/-- What the loop over `recvb` makes of the bytes of one block. -/
theorem recvChunk_filled {c : List UInt8} {n size : Nat} (hf : FramesAt s.frames k)
    (hb : buff < k) (hk : k < 255) (hc : c ≠ []) (hlen : c.length = min PAGE_SIZE (n - size)) :
    ∃ s', (recvChunk buff b n size s).feed c =
        recvData buff b n (size + c.length) c.length s' ∧ Filled buff k b c s s' := by
  obtain ⟨m', halloc, hframes⟩ := hf.alloc (Nat.zero_lt_of_lt hb) hk
  have hpos := List.length_pos_of_ne_nil hc
  have hlt : size < n := by omega
  -- the block gets a frame, the frame the bytes
  let s₁ := s.giveFrame b k (min PAGE_SIZE (n - size)) m'
  have hb₁ : (s₁.fs b).data = k ∧ (s₁.fs b).size = c.length ∧ (s₁.fs b).type = (s.fs b).type ∧
      (s₁.fs b).name = (s.fs b).name := by
    have hself : s₁.fs b = { s.fs b with data := k, size := min PAGE_SIZE (n - size) } :=
      FsState.fs_setBlock
    rw [hself, hlen]
    exact ⟨rfl, rfl, rfl, rfl⟩
  have hstart : recvChunk buff b n size s = .recv buff (.data b n size 0) s₁ := by
    rw [recvChunk, if_pos hlt, halloc]
    rfl
  have hfeed : (recvChunk buff b n size s).feed c =
      recvData buff b n (size + c.length) c.length (s₁.pokes k 0 c) := by
    have hloop := feed_loop buff k 0 c.length (fun i => .data b n (size + i) i)
      (fun i s => recvData buff b n (size + i) i s) (P := fun s => (s.fs b).data = k)
      (fun s i c hs => hs)
      (fun s i c hs => by rw [Nat.zero_add, recvb, hs]; rfl)
      (fun s i hs hi => by
        rw [recvData, if_pos]
        omega)
      c 0 s₁ hb₁.1 hc (by omega)
    rw [hstart]
    simpa using hloop
  have hkept₁ : Kept buff k [b] { s with frames := m' } s₁ := kept_setBlock
  refine ⟨s₁.pokes k 0 c, hfeed, ?_, hframes, rfl, FsState.giveFrame_next,
    FsState.giveFrame_dnext, hb₁.1, hb₁.2.1, hb₁.2.2, ?_⟩
  · exact Kept.trans ⟨hkept₁.body, hkept₁.mem⟩ (kept_pokes (.inr (Nat.le_refl k)))
  · refine List.ext_getElem (by simp) fun j hj hj' => ?_
    rw [List.getElem_map, List.getElem_range, pokes_mem, if_pos (by omega), Nat.sub_zero,
      List.getD_eq_getElem _ _ hj']

theorem Filled.content {c : List UInt8} {set : List Nat} (h : Filled buff k b c s s')
    (hset : ∀ x ∈ set, x ∉ [b]) (hd : ∀ x ∈ set, buff < (s.fs x).data ∧ (s.fs x).data < k) :
    contentOf s' (set ++ [b]) = contentOf s set ++ c := by
  have hold := h.kept.content hset hd
  unfold contentOf at hold ⊢
  rw [List.flatMap_append, hold, List.flatMap_singleton, h.data, h.size, h.bytes]

theorem Filled.sizes {c : List UInt8} {set : List Nat} (h : Filled buff k b c s s')
    (hset : ∀ x ∈ set, x ∉ [b]) : sizesOf s' (set ++ [b]) = sizesOf s set + c.length := by
  have hold := h.kept.sizes hset
  unfold sizesOf at hold ⊢
  rw [List.map_append, List.sum_append, hold, List.map_singleton, List.sum_singleton, h.size]

/-- The type and the name of every block stay, those of `b` too. -/
theorem Filled.head_of {c : List UInt8} (h : Filled buff k b c s s') (x : Nat) :
    (s'.fs x).type = (s.fs x).type ∧ (s'.fs x).name = (s.fs x).name := by
  by_cases hx : x = b
  · rw [hx]
    exact h.head
  · obtain ⟨ht, -, -, hn⟩ := body_eq (h.kept.body x (fun hm => hx (List.mem_singleton.mp hm)))
    exact ⟨ht, hn⟩

theorem Receiving.filled {set : List Nat} {got c : List UInt8}
    (h : Receiving σ buff k b s free e files done f set got) (hset : e.blocks = set ++ [b])
    (hs : Filled buff k b c s s') :
    Receiving σ buff (k + 1) b s' free e files done f e.blocks (got ++ c) := by
  have hbset : ∀ x ∈ set, x ∉ [b] := by
    intro x hx hxb
    have hnd := h.filling.nodup
    rw [hset, List.nodup_append] at hnd
    exact hnd.2.2 x hx x hxb rfl
  have hbe : b ∈ e.blocks := by rw [hset]; simp
  obtain ⟨hdfree, hdfiles⟩ := h.filling.disjoint
  obtain ⟨htype, hname⟩ := hs.head_of e.1
  refine ⟨h.filling.of_links hs.firstFree hs.next hs.dnext, hs.frames,
    Nat.lt_succ_of_lt h.buff_lt, fun x hx => ?_, ?_, htype.trans h.type, ?_, ?_, ?_, ?_⟩
  · have hx' : x ∉ [b] := fun hm => (hdfree x hx).1 (List.mem_singleton.mp hm ▸ hbe)
    exact (body_eq (hs.kept.body x hx')).2.1.trans (h.stale x hx)
  · refine stores_kept h.stores hs.kept (fun e' he' x hx hm => ?_) (Nat.le_succ k)
    exact hdfiles b hbe e' he' (List.mem_singleton.mp hm ▸ hx)
  · rw [hname]
    exact h.name
  · rw [hset, hs.content hbset h.data, h.content]
  · rw [hset, hs.sizes hbset, h.sizes, List.length_append]
  · intro x hx
    rw [hset, List.mem_append, List.mem_singleton] at hx
    rcases hx with hx | rfl
    · obtain ⟨-, -, hdata, -⟩ := body_eq (hs.kept.body x (hbset x hx))
      rw [hdata]
      exact ⟨(h.data x hx).1, Nat.lt_succ_of_lt (h.data x hx).2⟩
    · rw [hs.data]
      exact ⟨h.buff_lt, Nat.lt_succ_self k⟩

/-- **One block of data.** -/
theorem Receiving.fill {set : List Nat} {got c : List UInt8} {n : Nat}
    (h : Receiving σ buff k b s free e files done f set got) (hset : e.blocks = set ++ [b])
    (hk : k < 255) (hc : c ≠ []) (hlen : c.length = min PAGE_SIZE (n - got.length)) :
    ∃ s', (recvChunk buff b n got.length s).feed c =
        recvData buff b n (got.length + c.length) c.length s' ∧
      Receiving σ buff (k + 1) b s' free e files done f e.blocks (got ++ c) := by
  obtain ⟨s', hfeed, hs⟩ := recvChunk_filled h.frames h.buff_lt hk hc hlen
  exact ⟨s', hfeed, h.filled hset hs⟩

/-- The end of the data: the last link is cut. -/
theorem Receiving.close {set : List Nat} {got : List UInt8} {n : Nat}
    (h : Receiving σ buff k b s free e files done f set got) (hn : n ≤ got.length)
    (hst : Stores σ buff k s e (e.1, f)) :
    ∃ s', recvChunk buff b n got.length s = .recv buff .magic0 s' ∧
      Loaded σ buff k s' free (e :: files) ((e.1, f) :: done) := by
  have hkept : Kept buff k [] s (s.closeFile b) := kept_setLink fun _ => rfl
  refine ⟨s.closeFile b, by rw [recvChunk, if_neg (Nat.not_lt.mpr hn)]; rfl, ?_, h.frames,
    h.buff_lt, fun x hx => ?_, .cons ?_ (stores_kept h.stores hkept
      (fun _ _ _ _ => List.not_mem_nil) (Nat.le_refl k))⟩
  · exact h.filling.close rfl FsState.closeFile_next FsState.closeFile_dnext
  · exact (body_eq (hkept.body x List.not_mem_nil)).2.1.trans (h.stale x hx)
  · exact hst.kept hkept (fun _ _ => List.not_mem_nil) (Nat.le_refl k)

/-- The next block of the data. -/
theorem Receiving.grow {got : List UInt8} {nb : Nat}
    (h : Receiving σ buff k b s (nb :: free) e files done f e.blocks got) {n : Nat}
    (hn : got.length < n) (i : Nat) (hi : i = PAGE_SIZE) :
    ∃ s', recvData buff b n got.length i s = recvChunk buff nb n got.length s' ∧
      Receiving σ buff k nb s' free (e.1, e.2 ++ [nb]) files done f e.blocks got := by
  obtain ⟨hfirst, hnb, -⟩ := Chain.cons_iff.mp h.filling.freeList
  rw [hfirst] at hnb
  have hfind : fsFindFreeBlock s = some (nb, { s with firstFreeBlock := s.next nb }) := by
    rw [fsFindFreeBlock, hfirst, if_neg hnb]
  have hkept : Kept buff k [nb] s (s.nextBlock b nb) := kept_nextBlock
  obtain ⟨hdfree, hdfiles⟩ := h.filling.disjoint
  obtain ⟨hnbe, hnbf⟩ := hdfree nb List.mem_cons_self
  have hB : ∀ x ∈ e.blocks, x ∉ [nb] := fun x hx hm => hnbe (List.mem_singleton.mp hm ▸ hx)
  obtain ⟨ht, -, -, hname⟩ := body_eq (hkept.body e.1 (hB e.1 List.mem_cons_self))
  refine ⟨s.nextBlock b nb, ?_, ?_, h.frames, h.buff_lt, fun x hx => ?_, ?_, ht.trans h.type, ?_,
    (hkept.content hB h.data).trans h.content, (hkept.sizes hB).trans h.sizes, fun x hx => ?_⟩
  · rw [recvData, if_neg (by omega), if_pos hn, hfind]
    rfl
  · exact h.filling.grow rfl FsState.nextBlock_next FsState.nextBlock_dnext
  · have hx' : x ∉ [nb] := by
      intro hm
      have hnd := h.filling.freeList.nodup
      exact (List.nodup_cons.mp hnd).1 (List.mem_singleton.mp hm ▸ hx)
    exact (body_eq (hkept.body x hx')).2.1.trans (h.stale x (List.mem_cons_of_mem nb hx))
  · refine stores_kept h.stores hkept (fun e' he' x hx hm => ?_) (Nat.le_refl k)
    exact hnbf e' he' (List.mem_singleton.mp hm ▸ hx)
  · rw [hname]
    exact h.name
  · obtain ⟨-, -, hdata, -⟩ := body_eq (hkept.body x (hB x hx))
    rw [hdata]
    exact h.data x hx

/-- **The data of a file**, in as many blocks as it takes. -/
theorem Receiving.run (n : Nat) : ∀ (ds : List UInt8) {k b : Nat} {s : FsState}
    {free : List Nat} {e : Entry} {set : List Nat} {got : List UInt8},
    ds.length ≤ n → Receiving σ buff k b s free e files done f set got → e.blocks = set ++ [b] →
    ds ≠ [] → f.data ≠ [] → got ++ ds = received f → got.length + ds.length = f.data.length →
    (ds.length + 4095) / 4096 ≤ free.length + 1 → k + (ds.length + 4095) / 4096 ≤ 255 →
    ∃ s' e', (recvChunk buff b f.data.length got.length s).feed ds = .recv buff .magic0 s' ∧
      Loaded σ buff (k + (ds.length + 4095) / 4096) s' (free.drop ((ds.length + 4095) / 4096 - 1))
        (e' :: files) ((e.1, f) :: done) := by
  induction n with
  | zero =>
    intro ds k b s free e set got hn _ _ hne
    exact absurd (List.length_eq_zero_iff.mp (Nat.le_zero.mp hn)) hne
  | succ n ih =>
    intro ds k b s free e set got hn h hset hne hf hgot hlen hroom hk
    have hpos := List.length_pos_of_ne_nil hne
    -- the bytes of this block, and the rest
    have hc : (ds.take PAGE_SIZE).length = min PAGE_SIZE ds.length := List.length_take ..
    have hr : (ds.drop PAGE_SIZE).length = ds.length - PAGE_SIZE := List.length_drop ..
    have hsplit := List.take_append_drop PAGE_SIZE ds
    generalize ds.take PAGE_SIZE = c at hc hsplit
    generalize ds.drop PAGE_SIZE = rest at hr hsplit
    have hcne : c ≠ [] := by
      intro he
      obtain rfl := he
      rw [List.length_nil, PAGE_SIZE] at hc
      omega
    obtain ⟨s', hfeed, h'⟩ := h.fill (c := c) (n := f.data.length) hset (by omega) hcne
      (by rw [hc]; omega)
    have hfeed' : (recvChunk buff b f.data.length got.length s).feed ds =
        (recvData buff b f.data.length (got ++ c).length c.length s').feed rest := by
      rw [← hsplit, feed_append, hfeed, List.length_append]
    unfold PAGE_SIZE at hc hr
    by_cases hrest : rest = []
    · -- the last block
      subst hrest
      rw [List.append_nil] at hsplit
      subst hsplit
      have hst : Stores σ buff (k + 1) s' e (e.1, f) :=
        ⟨rfl, h'.type, h'.name,
          fun _ => ⟨h'.content.trans hgot, h'.sizes.trans (by rw [List.length_append]; exact hlen),
            h'.data⟩, fun h0 => absurd h0 hf⟩
      obtain ⟨s'', hclose, hload⟩ := h'.close (n := f.data.length)
        (by rw [List.length_append]; omega) hst
      rw [List.length_nil] at hr
      have hone : (c.length + 4095) / 4096 = 1 := by omega
      rw [hone]
      refine ⟨s'', e, ?_, hload⟩
      rw [hfeed', feed_nil, recvData, if_neg (by rw [List.length_append]; omega),
        if_neg (by rw [List.length_append]; omega), hclose]
    · have hrpos := List.length_pos_of_ne_nil hrest
      have hlen' : (got ++ c).length < f.data.length := by rw [List.length_append]; omega
      cases free with
      | nil =>
        rw [List.length_nil] at hroom
        omega
      | cons nb free =>
        obtain ⟨s'', hgrow, h''⟩ := h'.grow hlen' c.length (by rw [hc, PAGE_SIZE]; omega)
        rw [List.length_cons] at hroom
        have hcount : (ds.length + 4095) / 4096 = (rest.length + 4095) / 4096 + 1 := by omega
        obtain ⟨m, hm⟩ : ∃ m, (rest.length + 4095) / 4096 = m + 1 :=
          ⟨(rest.length + 4095) / 4096 - 1, by omega⟩
        obtain ⟨s₃, e', hrun, hload⟩ := ih rest (by omega) h'' rfl hrest hf
          (by rw [List.append_assoc, hsplit, hgot])
          (by rw [List.length_append]; omega) (by omega) (by omega)
        refine ⟨s₃, e', by rw [hfeed', hgrow, hrun], ?_⟩
        rw [hm, Nat.add_assoc, Nat.add_comm 1] at hload
        rw [hcount, hm, Nat.add_sub_cancel, List.drop_succ_cons]
        exact hload

/-- **A new entry**, which takes the first free block. -/
theorem Loaded.create (h : Loaded σ buff k s (b :: free) files done) (hn : 0 ∉ f.name)
    (hlen : f.name.length ≤ 21) (htrailer : f.name ≠ trailer) (hdata : f.data.length < 2 ^ 32)
    (hstat : f.stat.length = 18) :
    ∃ s', recvFile buff (s.pokes buff 0 (cpioHead f)) = recvChunk buff b f.data.length 0 s' ∧
      Receiving σ buff k b s' free (b, []) files done f [] [] ∧ (s'.fs b).size = σ b := by
  obtain ⟨hns, hfs, hname⟩ := cpioHead_fields buff s hstat hlen hdata
  obtain ⟨hfirst, hb0, -⟩ := Chain.cons_iff.mp h.layout.freeList
  rw [hfirst] at hb0
  have hdisj := h.layout.all.nodup_iff.mpr List.nodup_range
  rw [List.nodup_append] at hdisj
  have hbfiles : ∀ e ∈ files, b ∉ e.blocks := fun e he hb =>
    hdisj.2.2 b (by simp) b (List.mem_flatMap.mpr ⟨e, he, hb⟩) rfl
  have hnodup := h.layout.freeList.nodup
  -- the header in the buffer, the first free block, the three assignments
  let s₀ := s.pokes buff 0 (cpioHead f)
  let s₁ : FsState := { s₀ with firstFreeBlock := s₀.next b }
  let s₂ := s₁.setBlock b fun x =>
    { x with type := FS_TYPE_INODE, flags := FS_RW, dnext := s₁.next 0 }
  let s₃ := s₂.setBlock 0 fun x => { x with next := b }
  let copy (x : Mem) := strncpy x (fun i => s₀.mem buff (cpioHdrSize + i))
    (min FS_NAME_SIZE (cNamesize (s₀.mem buff)))
  let s₄ := s₃.setBlock b fun x => { x with name := copy x.name }
  have hfind : fsFindFreeBlock s₀ = some (b, s₁) := by
    have hf : s₀.firstFreeBlock = b := hfirst
    unfold fsFindFreeBlock
    rw [hf, if_neg hb0]
  have hstart : recvFile buff s₀ = recvChunk buff b f.data.length 0 s₄ := by
    unfold recvFile
    dsimp only
    rw [if_neg, hfind, hfs]
    exact fun h0 => htrailer ((strcmp_eq_zero hname hn (by decide)).mp h0)
  have hb₂ : s₂.fs b = { s.fs b with type := FS_TYPE_INODE, flags := FS_RW, dnext := s₁.next 0 } :=
    Function.update_self ..
  have hkept₃ : Kept buff k [] s₂ s₃ := kept_setLink fun _ => rfl
  obtain ⟨ht₃, hs₃, -, -⟩ := body_eq (hkept₃.body b List.not_mem_nil)
  have hb₄ : s₄.fs b = { s₃.fs b with name := copy (s₃.fs b).name } := Function.update_self ..
  have htype : (s₄.fs b).type = FS_TYPE_INODE := by rw [hb₄, ht₃, hb₂]
  have hsize : (s₄.fs b).size = (s.fs b).size := by rw [hb₄, hs₃, hb₂]
  have hkept : Kept buff k [b] s s₄ := by
    have h₀ : Kept buff k [b] s s₀ := kept_pokes (.inl (Nat.le_refl buff))
    have h₁ : Kept buff k [b] s s₁ := ⟨h₀.body, h₀.mem⟩
    have h₂ : Kept buff k [b] s₁ s₂ := kept_setBlock
    have h₃ : Kept buff k [b] s₂ s₃ := kept_setLink fun _ => rfl
    exact ((h₁.trans h₂).trans h₃).trans kept_setBlock
  have hopen : s₄ = s₀.openFile buff b := rfl
  refine ⟨s₄, hstart, ⟨?_, h.frames, h.buff_lt, fun x hx => ?_, ?_, htype, ?_, rfl, rfl, nofun⟩,
    hsize.trans (h.stale b List.mem_cons_self)⟩
  · exact h.layout.newEntry rfl (hopen ▸ FsState.openFile_next) (hopen ▸ FsState.openFile_dnext)
  · have hx' : x ∉ [b] := fun hm =>
      (List.nodup_cons.mp hnodup).1 (List.mem_singleton.mp hm ▸ hx)
    exact (body_eq (hkept.body x hx')).2.1.trans (h.stale x (List.mem_cons_of_mem b hx))
  · refine stores_kept h.stores hkept (fun e he x hx hm => ?_) (Nat.le_refl k)
    exact hbfiles e he (List.mem_singleton.mp hm ▸ hx)
  · have hmin : min FS_NAME_SIZE (cNamesize (s₀.mem buff)) = f.name.length + 1 :=
      (congrArg (min FS_NAME_SIZE) hns).trans (Nat.min_eq_right (Nat.succ_le_succ hlen))
    rw [hb₄]
    change Holds (strncpy _ _ (min FS_NAME_SIZE (cNamesize (s₀.mem buff)))) f.name
    rw [hmin]
    exact strncpy_holds hname hn _

end

/-! ## 8. One entry -/

section
variable {f : CpioFile}

theorem body_split : cpioBody f = received f ++ leftover f := (List.take_append_drop ..).symm

theorem body_odd (h : f.name.length % 2 = 1) : cpioBody f = f.data ++ padding f.data.length := by
  rw [cpioBody, padding, if_neg (by omega)]
  rfl

theorem body_even (h : f.name.length % 2 ≠ 1) :
    cpioBody f = (0 :: f.data) ++ padding f.data.length := by
  rw [cpioBody, padding, if_pos (by omega)]
  rfl

theorem received_even (h : f.name.length % 2 ≠ 1) :
    received f = (0 :: f.data).take f.data.length := by
  rw [received, body_even h, List.take_append_of_le_length (by simp)]

theorem length_received : (received f).length = f.data.length := by
  by_cases h : f.name.length % 2 = 1
  · rw [received, body_odd h, List.take_left]
  · rw [received_even h, List.length_take, List.length_cons]
    omega

/-- A byte in front of a list is not seen if the list repeats it. -/
theorem take_cons_iff (a : UInt8) (l : List UInt8) :
    (a :: l).take l.length = l ↔ ∀ c ∈ l, c = a := by
  induction l generalizing a with
  | nil => simp
  | cons c l ih =>
    rw [List.length_cons, List.take_succ_cons, List.cons.injEq, ih]
    constructor
    · intro h
      obtain ⟨rfl, h⟩ := h
      simpa using h
    · intro h
      have hc : c = a := h c List.mem_cons_self
      exact ⟨hc.symm, fun x hx => (h x (List.mem_cons_of_mem c hx)).trans hc.symm⟩

/-- **What a file gets is its data** if its name has no padding, or the padding does not
    show. -/
theorem received_eq_iff :
    received f = f.data ↔ f.name.length % 2 = 1 ∨ ∀ c ∈ f.data, c = 0 := by
  by_cases h : f.name.length % 2 = 1
  · rw [received, body_odd h, List.take_left]
    exact iff_of_true rfl (.inl h)
  · rw [received_even h, take_cons_iff, or_iff_right h]

theorem magic_notMem_padding (n : Nat) : CPIO_MAGIC0 ∉ padding n := by
  unfold padding
  split <;> decide

/-- What is left of an entry, and the search for the next magic. -/
theorem feed_leftover (h : InStep f) (buff : Nat) (s : FsState) :
    ∃ m, (Sys.recv buff .magic0 s).feed (leftover f) =
      .recv buff .magic0 { s with mem := Function.update s.mem buff m } := by
  by_cases hodd : f.name.length % 2 = 1
  · refine feed_skip _ ?_ s
    rw [leftover, body_odd hodd, List.drop_left]
    exact magic_notMem_padding _
  by_cases hnil : f.data = []
  · refine feed_skip _ ?_ s
    rw [leftover, body_even hodd, hnil]
    decide
  have hleft : leftover f = f.data.getLast hnil :: padding f.data.length := by
    rw [leftover, body_even hodd, List.drop_append_of_le_length (by simp),
      List.drop_length_cons hnil]
    rfl
  rw [hleft]
  by_cases hlast : f.data.getLast hnil = CPIO_MAGIC0
  · -- the padding of the data stops the search for the rest of the magic
    have hpad : padding f.data.length = [0] := by
      rcases h with h | h | h
      · exact absurd h hodd
      · exact if_pos h
      · exact absurd (by rw [List.getLast?_eq_some_getLast hnil, hlast]) h
    rw [hlast, hpad]
    exact ⟨Function.update (Function.update (s.mem buff) 0 CPIO_MAGIC0) 1 0, by
      simp [feed_cons, Sys.step, recvb, FsState.poke, CPIO_MAGIC1]⟩
  · refine feed_skip _ (fun hmem => ?_) s
    rcases List.mem_cons.mp hmem with he | hmem
    · exact hlast he.symm
    · exact magic_notMem_padding _ hmem

end

section
variable {σ : Nat → Nat} {buff k b : Nat} {s : FsState} {free : List Nat} {f : CpioFile}
  {files : List Entry} {done : List (Nat × CpioFile)}

/-- The buffer is not part of the table. -/
theorem Loaded.scratch (h : Loaded σ buff k s free files done) (m : Mem) :
    Loaded σ buff k { s with mem := Function.update s.mem buff m } free files done := by
  have hkept : Kept buff k [] s { s with mem := Function.update s.mem buff m } :=
    ⟨fun _ _ => rfl, fun g hg _ => Function.update_of_ne (Nat.ne_of_gt hg) ..⟩
  exact ⟨h.layout.of_links rfl rfl rfl, h.frames, h.buff_lt, h.stale,
    stores_kept h.stores hkept (fun _ _ _ _ => List.not_mem_nil) (Nat.le_refl k)⟩

/-- **One entry of an archive.** -/
theorem Loaded.entry (h : Loaded σ buff k s (b :: free) files done) (hn : 0 ∉ f.name)
    (hlen : f.name.length ≤ 21) (htrailer : f.name ≠ trailer) (hstat : f.stat.length = 18)
    (hstep : InStep f) (hroom : nblocks f.data.length ≤ free.length + 1)
    (hk : k + nblocks f.data.length ≤ 255) :
    ∃ k' s' e', (Sys.recv buff .magic0 s).feed (cpioEntry f) = .recv buff .magic0 s' ∧
      Loaded σ buff k' s' ((b :: free).drop (nblocks f.data.length)) (e' :: files)
        ((b, f) :: done) ∧ k' ≤ k + nblocks f.data.length := by
  have hdata : f.data.length < 2 ^ 32 := by
    unfold nblocks at hk
    omega
  obtain ⟨s₁, hfile, hrecv, hsize⟩ := h.create hn hlen htrailer hdata hstat
  obtain ⟨k', s₂, e', hrun, hload, hk'⟩ : ∃ k' s₂ e',
      (recvChunk buff b f.data.length 0 s₁).feed (received f) = .recv buff .magic0 s₂ ∧
      Loaded σ buff k' s₂ ((b :: free).drop (nblocks f.data.length)) (e' :: files)
        ((b, f) :: done) ∧ k' ≤ k + nblocks f.data.length := by
    by_cases hnil : f.data = []
    · have hzero : received f = [] := by
        rw [← List.length_eq_zero_iff, length_received, hnil]
        rfl
      have hst : Stores σ buff k s₁ (b, []) (b, f) :=
        ⟨rfl, hrecv.type, hrecv.name, fun hne => absurd hnil hne, fun _ => ⟨rfl, hsize⟩⟩
      obtain ⟨s₂, hclose, hload⟩ := hrecv.close (n := 0) (Nat.le_refl 0) hst
      rw [hzero, hnil]
      exact ⟨k, s₂, (b, []), hclose, hload, Nat.le_add_right ..⟩
    · have hpos := List.length_pos_of_ne_nil hnil
      have hcount : nblocks f.data.length = ((received f).length + 4095) / 4096 := by
        rw [nblocks, length_received]
        omega
      have hne : received f ≠ [] := List.ne_nil_of_length_pos (by rw [length_received]; exact hpos)
      rw [hcount] at hroom hk ⊢
      obtain ⟨s₂, e', hrun, hload⟩ := hrecv.run _ (received f) (Nat.le_refl _) rfl hne hnil
        rfl (by rw [length_received]; exact Nat.zero_add _) hroom hk
      refine ⟨_, s₂, e', hrun, ?_, Nat.le_refl _⟩
      obtain ⟨m, hm⟩ : ∃ m, ((received f).length + 4095) / 4096 = m + 1 :=
        ⟨((received f).length + 4095) / 4096 - 1, by rw [length_received]; omega⟩
      rw [hm] at hload ⊢
      exact hload
  obtain ⟨m, hm⟩ := feed_leftover hstep buff s₂
  refine ⟨k', _, e', ?_, hload.scratch m, hk'⟩
  rw [cpioEntry, feed_append, feed_head hstat hlen hdata, body_split, feed_append, hfile, hrun, hm]

end

/-! ## 9. An archive -/

/-- What a file needs to be loaded. -/
structure Loadable (f : CpioFile) : Prop where
  nul : 0 ∉ f.name
  length : f.name.length ≤ 21
  name : f.name ≠ trailer
  stat : f.stat.length = 18
  inStep : InStep f

/-- The blocks a list of files takes. -/
def totalBlocks (files : List CpioFile) : Nat := (files.map fun f => nblocks f.data.length).sum

/-- **Any number of entries.** The frames handed out are fewer than the blocks. -/
theorem load_files {σ : Nat → Nat} {buff : Nat} : ∀ (files : List CpioFile) {k b : Nat}
    {s : FsState} {table : List Entry} {done : List (Nat × CpioFile)},
    Loaded σ buff k s (List.range' b (128 - b)) table done → (∀ f ∈ files, Loadable f) →
    b + totalBlocks files ≤ 128 → k ≤ b + 64 →
    ∃ k' s' free' table', (Sys.recv buff .magic0 s).feed (files.flatMap cpioEntry) =
        .recv buff .magic0 s' ∧
      Loaded σ buff k' s' free' table' ((slots b files).reverse ++ done)
  | [], k, b, s, table, done, h, _, _, _ => ⟨k, s, _, table, rfl, h⟩
  | f :: files, k, b, s, table, done, h, hf, hroom, hk => by
    have hpos : 1 ≤ nblocks f.data.length := Nat.le_max_left ..
    have htotal : totalBlocks (f :: files) = nblocks f.data.length + totalBlocks files := by
      simp [totalBlocks]
    rw [htotal] at hroom
    obtain ⟨n, hn⟩ : ∃ n, 128 - b = n + 1 := ⟨127 - b, by omega⟩
    rw [hn, List.range'_succ] at h
    have hl := hf f List.mem_cons_self
    obtain ⟨k₁, s₁, e₁, hfeed, h₁, hk₁⟩ := h.entry hl.nul hl.length hl.name hl.stat hl.inStep
      (by rw [List.length_range']; omega) (by omega)
    have hfree : (b :: List.range' (b + 1) n).drop (nblocks f.data.length) =
        List.range' (b + nblocks f.data.length) (128 - (b + nblocks f.data.length)) := by
      rw [← List.range'_succ, List.drop_range', Nat.mul_one]
      congr 1
      omega
    rw [hfree] at h₁
    obtain ⟨k', s', free', table', hfeed', h'⟩ := load_files files h₁
      (fun g hg => hf g (List.mem_cons_of_mem f hg)) (by omega) (by omega)
    refine ⟨k', s', free', table', ?_, ?_⟩
    · rw [List.flatMap_cons, feed_append, hfeed, hfeed']
    · rw [slots, List.reverse_cons, List.append_assoc]
      exact h'

/-- A session in a fresh file system. -/
theorem recv_initFs (fs : Nat → FsBlock) (mem : Nat → Mem) :
    ∃ s, fsRecvCpio (initFs fs mem) = .recv 3 .magic0 s ∧
      Loaded (fun b => (fs b).size) 3 4 s (List.range' 1 127) [] [] := by
  have hframes : FramesAt initFrames 2 := by
    refine ⟨rfl, fun i hi _ => ⟨?_, rfl⟩⟩
    exact if_neg (by omega)
  obtain ⟨m, hm, hframes⟩ := hframes.alloc (by omega) (by omega)
  obtain ⟨m', hm', hframes'⟩ := hframes.alloc (by omega) (by omega)
  have hfr : (initFs fs mem).frames = m := by
    unfold initFs
    rw [hm]
    rfl
  have hsize : ∀ b ∈ List.range' 1 127, ((initFs fs mem).fs b).size = (fs b).size := by
    intro b hb
    obtain ⟨hb0, hb128⟩ := List.mem_range'_1.mp hb
    have h0 : b ≠ 0 := by omega
    have h128 : b < 128 := by omega
    unfold initFs
    rw [hm]
    by_cases h127 : b = 127
    · subst h127
      simp [FsState.setBlock, FS_NB_BLOCKS]
    · simp [FsState.setBlock, FS_NB_BLOCKS, h0, h127, h128]
  refine ⟨{ initFs fs mem with frames := m' }, ?_, ?_, hframes', by omega, hsize, .nil⟩
  · rw [fsRecvCpio, hfr, hm']
  · exact (layout_initFs fs mem).of_links rfl rfl rfl

/-- **An archive up to its first trailer.** -/
theorem load_archive (fs : Nat → FsBlock) (mem : Nat → Mem) {pre : List CpioFile} {t : CpioFile}
    (rest : List UInt8) (hpre : ∀ f ∈ pre, Loadable f) (hroom : totalBlocks pre ≤ 127)
    (ht : t.name = trailer) (hstat : t.stat.length = 18) (hdata : t.data.length < 2 ^ 32) :
    ∃ k s free table, (fsRecvCpio (initFs fs mem)).feed
        (pre.flatMap cpioEntry ++ (cpioEntry t ++ rest)) = .idle s ∧ Layout s free table ∧
      List.Forall₂ (Stores (fun b => (fs b).size) 3 k s) table (slots 1 pre).reverse := by
  obtain ⟨s₀, hrecv, h₀⟩ := recv_initFs fs mem
  obtain ⟨k, s, free, table, hfeed, h⟩ := load_files pre (b := 1) h₀ hpre (by omega) (by omega)
  rw [List.append_nil] at h
  have hname : t.name.length ≤ 21 := by
    rw [ht]
    decide
  obtain ⟨-, -, hholds⟩ := cpioHead_fields 3 s hstat hname hdata
  rw [ht] at hholds
  let s₁ := s.pokes 3 0 (cpioHead t)
  let s₂ : FsState := { s₁ with frames := freeFrame s₁.frames 3 }
  have hend : recvFile 3 s₁ = .idle s₂ := by
    unfold recvFile
    exact if_pos ((strcmp_eq_zero hholds (by decide) (by decide)).mpr rfl)
  have hkept₁ : Kept 3 k [] s s₁ := kept_pokes (.inl (Nat.le_refl 3))
  have hkept : Kept 3 k [] s s₂ := ⟨hkept₁.body, hkept₁.mem⟩
  refine ⟨k, s₂, free, table, ?_, h.layout.of_links rfl rfl rfl,
    stores_kept h.stores hkept (fun _ _ _ _ => List.not_mem_nil) (Nat.le_refl k)⟩
  rw [hrecv, feed_append, hfeed, cpioEntry, List.append_assoc, feed_append,
    feed_head hstat hname hdata, hend, feed_idle]

/-! ## 10. Lookup -/

theorem forall₂_left {α β : Type} {R : α → β → Prop} {l : List α} {l' : List β}
    (h : List.Forall₂ R l l') {a : α} (ha : a ∈ l) : ∃ b ∈ l', R a b := by
  induction h with
  | nil => cases ha
  | @cons x y _ _ hxy _ ih =>
    rcases List.mem_cons.mp ha with rfl | ha
    · exact ⟨y, List.mem_cons_self, hxy⟩
    · obtain ⟨b, hb, hab⟩ := ih ha
      exact ⟨b, List.mem_cons_of_mem y hb, hab⟩

section
variable {σ : Nat → Nat} {buff k : Nat} {s : FsState} {free : List Nat} {table : List Entry}
  {ps : List (Nat × CpioFile)} {e : Entry} {p : Nat × CpioFile} {name : List UInt8}

/-- A chain of blocks is no longer than the table. -/
theorem Layout.length_le (h : Layout s free table) {next : Nat → Nat} {b : Nat} {l : List Nat}
    (hc : Chain 0 next b l) (hl : ∀ x ∈ l, ∃ e ∈ table, x ∈ e.blocks) : l.length ≤ NB_FRAMES := by
  have hsub : l ⊆ List.range FS_NB_BLOCKS := fun x hx => by
    obtain ⟨e, he, hx⟩ := hl x hx
    exact h.all.subset (List.mem_append_right _ (List.mem_flatMap.mpr ⟨e, he, hx⟩))
  have := (List.subperm_of_subset hc.nodup hsub).length_le
  rw [List.length_range, FS_NB_BLOCKS] at this
  unfold NB_FRAMES
  omega

/-- `fs_find` goes through the entries of the table. -/
theorem Layout.fsFind (h : Layout s free table) (path : Mem) :
    fsFind s path = ((table.map Prod.fst).find?
      fun i => strncmp (s.fs i).name path FS_NAME_SIZE == 0).getD 0 := by
  unfold Bios.fsFind
  rw [h.dir.walk (h.length_le h.dir fun x hx => ?_)]
  obtain ⟨e, he, rfl⟩ := List.mem_map.mp hx
  exact ⟨e, he, List.mem_cons_self⟩

/-- The name of an entry is that of its file. -/
theorem Stores.strncmp (h : Stores σ buff k s e p) (hp : 0 ∉ p.2.name ∧ p.2.name.length ≤ 21)
    (hn : 0 ∉ name ∧ name.length ≤ 21) :
    strncmp (s.fs e.1).name (cstr name) FS_NAME_SIZE = 0 ↔ p.2.name = name := by
  have hsee := strncmp_eq_zero (h.name.to FS_NAME_SIZE) ((holds_cstr name).to _) hp.1 hn.1
  have hp' : p.2.name.length ≤ FS_NAME_SIZE := Nat.le_succ_of_le hp.2
  have hn' : name.length ≤ FS_NAME_SIZE := Nat.le_succ_of_le hn.2
  rwa [List.take_of_length_le hp', List.take_of_length_le hn'] at hsee

/-- **A name that was loaded is found**, where its file is. -/
theorem find_loaded (hl : Layout s free table)
    (hst : List.Forall₂ (Stores σ buff k s) table ps)
    (hnames : ∀ p ∈ ps, 0 ∉ p.2.name ∧ p.2.name.length ≤ 21)
    (hnd : (ps.map fun p => p.2.name).Nodup) (hp : p ∈ ps) :
    fsFind s (cstr p.2.name) = p.1 ∧ p.1 ≠ 0 ∧ ∃ e ∈ table, Stores σ buff k s e p := by
  obtain ⟨e, he, hep⟩ := forall₂_left hst.flip hp
  have hsome : ((table.map Prod.fst).find?
      fun i => Bios.strncmp (s.fs i).name (cstr p.2.name) FS_NAME_SIZE == 0).isSome := by
    refine List.find?_isSome.mpr ⟨e.1, List.mem_map_of_mem he, ?_⟩
    rw [beq_iff_eq]
    exact (Stores.strncmp hep (hnames p hp) (hnames p hp)).mpr rfl
  obtain ⟨i, hi⟩ := Option.isSome_iff_exists.mp hsome
  obtain ⟨e', he', rfl⟩ := List.mem_map.mp (List.mem_of_find?_eq_some hi)
  obtain ⟨p', hp', hep'⟩ := forall₂_left hst he'
  -- the entry found has the name, and names are distinct
  have hfound := List.find?_some hi
  have hname : p'.2.name = p.2.name :=
    (hep'.strncmp (hnames p' hp') (hnames p hp)).mp (eq_of_beq hfound)
  obtain rfl : p' = p := List.inj_on_of_nodup_map hnd hp' hp hname
  refine ⟨?_, ?_, e', he', hep'⟩
  · rw [hl.fsFind, hi]
    exact hep'.first
  · rw [← hep'.first]
    exact fun h0 => hl.dir.null_notMem (h0 ▸ List.mem_map_of_mem he')

/-- A name that was not loaded is not found. -/
theorem find_missing (hl : Layout s free table)
    (hst : List.Forall₂ (Stores σ buff k s) table ps)
    (hnames : ∀ p ∈ ps, 0 ∉ p.2.name ∧ p.2.name.length ≤ 21)
    (hn : 0 ∉ name ∧ name.length ≤ 21) (hne : ∀ p ∈ ps, p.2.name ≠ name) :
    fsFind s (cstr name) = 0 := by
  rw [hl.fsFind, List.find?_eq_none.mpr]
  · rfl
  · intro i hi
    obtain ⟨e, he, rfl⟩ := List.mem_map.mp hi
    obtain ⟨p, hp, hep⟩ := forall₂_left hst he
    rw [beq_iff_eq, hep.strncmp (hnames p hp) hn]
    exact hne p hp

/-- **What is read of a file**: its data and its size, if it survives in its block. -/
theorem Stores.read_iff (h : Stores σ buff k s e p) (hl : Layout s free table) (he : e ∈ table) :
    (fsPrintFile s p.1 = p.2.data ∧ fsGetFileSize s p.1 = p.2.data.length) ↔
      (p.2.name.length % 2 = 1 ∨ ∀ c ∈ p.2.data, c = 0) ∧ (p.2.data = [] → σ p.1 = 0) := by
  have hwalk := (hl.entry e he).walk (hl.length_le (hl.entry e he) fun x hx => ⟨e, he, hx⟩)
  have hprint : fsPrintFile s p.1 = contentOf s e.blocks := by
    unfold fsPrintFile contentOf
    rw [← h.first, hwalk]
  have hsize : fsGetFileSize s p.1 = sizesOf s e.blocks := by
    unfold fsGetFileSize sizesOf
    rw [← h.first, h.type, if_neg (fun hne => hne rfl), hwalk]
  rw [hprint, hsize]
  by_cases hnil : p.2.data = []
  · obtain ⟨hone, hold⟩ := h.stale hnil
    have hsizes : sizesOf s e.blocks = σ p.1 := by
      rw [Entry.blocks, hone, ← h.first, ← hold]
      rfl
    have hcontent : (contentOf s e.blocks).length = σ p.1 := by
      rw [Entry.blocks, hone, ← h.first, ← hold]
      simp [contentOf]
    rw [hsizes, hnil]
    constructor
    · intro h
      obtain ⟨-, h0⟩ := h
      exact ⟨.inr nofun, fun _ => h0⟩
    · intro h
      obtain ⟨-, h0⟩ := h
      exact ⟨List.length_eq_zero_iff.mp (hcontent.trans (h0 rfl)), h0 rfl⟩
  · obtain ⟨hcontent, hsizes, -⟩ := h.data hnil
    rw [hcontent, hsizes, received_eq_iff]
    exact and_congr_right fun _ => iff_of_true rfl fun h0 => absurd h0 hnil

end

/-! ## 11. Round trips -/

section
variable {files : List CpioFile} {stat : List UInt8} {fs : Nat → FsBlock} {mem : Nat → Mem}

theorem slots_snd (b : Nat) (files : List CpioFile) : (slots b files).map Prod.snd = files := by
  induction files generalizing b with
  | nil => rfl
  | cons f files ih => rw [slots, List.map_cons, ih]

theorem mem_slots {b : Nat} {p : Nat × CpioFile} (hp : p ∈ slots b files) : p.2 ∈ files := by
  have := List.mem_map_of_mem (f := Prod.snd) hp
  rwa [slots_snd] at this

theorem slots_names (b : Nat) : (slots b files).map (fun p => p.2.name) =
    files.map CpioFile.name := by
  have := congrArg (List.map CpioFile.name) (slots_snd b files)
  rwa [List.map_map] at this

/-- A file that survives leaves no magic. -/
theorem Survives.inStep {n : Nat} {f : CpioFile} (h : Survives n f) : InStep f := by
  rcases h.data with hodd | hzero
  · exact .inl hodd
  · refine .inr (.inr fun hlast => ?_)
    exact absurd (hzero _ (List.mem_of_getLast? hlast)) (by decide)

theorem Packed.loadable (h : Packed files stat) {f : CpioFile} (hf : f ∈ files)
    (hname : f.name ≠ trailer) (hstep : InStep f) : Loadable f :=
  ⟨(h.names f hf).1, (h.names f hf).2.2, hname, h.stats f hf, hstep⟩

/-- What a session leaves of an archive without a second trailer. -/
theorem Packed.load (h : Packed files stat) (hl : ∀ f ∈ files, Loadable f)
    (fs : Nat → FsBlock) (mem : Nat → Mem) :
    ∃ s, (fsRecvCpio (initFs fs mem)).feed (cpioArchive files stat) = .idle s ∧
      ∀ p ∈ slots 1 files, fsFind s (cstr p.2.name) = p.1 ∧ p.1 ≠ 0 ∧
        ((fsPrintFile s p.1 = p.2.data ∧ fsGetFileSize s p.1 = p.2.data.length) ↔
          (p.2.name.length % 2 = 1 ∨ ∀ c ∈ p.2.data, c = 0) ∧
            (p.2.data = [] → (fs p.1).size = 0)) := by
  obtain ⟨k, s, free, table, hfeed, hlayout, hst⟩ := load_archive fs mem (t := cpioTrailer stat) []
    hl h.fits rfl h.stat (by simp [cpioTrailer])
  rw [List.append_nil] at hfeed
  refine ⟨s, hfeed, fun p hp => ?_⟩
  have hnd : ((slots 1 files).reverse.map fun p => p.2.name).Nodup := by
    rw [List.map_reverse, List.nodup_reverse, slots_names]
    exact h.nodup
  have hnames : ∀ p ∈ (slots 1 files).reverse, 0 ∉ p.2.name ∧ p.2.name.length ≤ 21 := by
    intro p hp
    obtain ⟨hnul, -, hlen⟩ := h.names p.2 (mem_slots (List.mem_reverse.mp hp))
    exact ⟨hnul, hlen⟩
  obtain ⟨hfind, h0, e, he, hep⟩ :=
    find_loaded hlayout hst hnames hnd (List.mem_reverse.mpr hp)
  exact ⟨hfind, h0, hep.read_iff hlayout he⟩

/-- **Files that survive are received.** -/
theorem roundTrips_of_survives (h : Packed files stat)
    (hs : ∀ p ∈ slots 1 files, Survives (fs p.1).size p.2) : RoundTrips files stat fs mem := by
  have hslot : ∀ f ∈ files, ∃ p ∈ slots 1 files, p.2 = f := by
    intro f hf
    rw [← slots_snd 1 files] at hf
    exact List.mem_map.mp hf
  have hl : ∀ f ∈ files, Loadable f := by
    intro f hf
    obtain ⟨p, hp, rfl⟩ := hslot f hf
    exact h.loadable hf (hs p hp).name (hs p hp).inStep
  obtain ⟨s, hfeed, hread⟩ := h.load hl fs mem
  refine ⟨s, hfeed, fun f hf => ?_⟩
  obtain ⟨p, hp, rfl⟩ := hslot f hf
  obtain ⟨hfind, h0, hiff⟩ := hread p hp
  rw [hfind]
  exact ⟨h0, hiff.mpr ⟨(hs p hp).data, (hs p hp).size⟩⟩

/-- A file with the name of the trailer ends the session, and is not found. -/
theorem RoundTrips.name_ne (h : Packed files stat) (hstep : ∀ f ∈ files, InStep f)
    (hr : RoundTrips files stat fs mem) {t : CpioFile} (ht : t ∈ files) : t.name ≠ trailer := by
  intro hname
  obtain ⟨pre, post, rfl⟩ := List.append_of_mem ht
  have hnd := h.nodup
  rw [List.map_append, List.map_cons, List.nodup_append] at hnd
  have hne : ∀ f ∈ pre, f.name ≠ trailer := fun f hf he =>
    hnd.2.2 f.name (List.mem_map_of_mem hf) t.name List.mem_cons_self (he.trans hname.symm)
  have hmem : ∀ f ∈ pre, f ∈ pre ++ t :: post := fun f hf => List.mem_append_left _ hf
  have hfits := h.fits
  rw [List.map_append, List.map_cons, List.sum_append, List.sum_cons] at hfits
  have hdata : t.data.length < 2 ^ 32 := by
    unfold nblocks at hfits
    omega
  have hroom : totalBlocks pre ≤ 127 := by
    unfold totalBlocks
    omega
  obtain ⟨k, s, free, table, hfeed, hlayout, hst⟩ := load_archive fs mem (t := t)
    (post.flatMap cpioEntry ++ cpioEntry (cpioTrailer stat))
    (fun f hf => h.loadable (hmem f hf) (hne f hf) (hstep f (hmem f hf)))
    hroom hname (h.stats t ht) hdata
  obtain ⟨s', hfeed', hrecv⟩ := hr
  have hs : s' = s := by
    rw [cpioArchive, List.flatMap_append, List.flatMap_cons, List.append_assoc, List.append_assoc,
      hfeed] at hfeed'
    exact (Sys.idle.inj hfeed').symm
  subst hs
  refine (hrecv t ht).1 ?_
  rw [hname]
  refine find_missing hlayout hst (fun p hp => ?_) (by decide) fun p hp => ?_
  · obtain ⟨hnul, -, hlen⟩ := h.names p.2 (hmem _ (mem_slots (List.mem_reverse.mp hp)))
    exact ⟨hnul, hlen⟩
  · exact hne p.2 (mem_slots (List.mem_reverse.mp hp))

/-- **Files that are received survive**, as long as every entry is seen. -/
theorem RoundTrips.survives (h : Packed files stat) (hstep : ∀ f ∈ files, InStep f)
    (hr : RoundTrips files stat fs mem) : ∀ p ∈ slots 1 files, Survives (fs p.1).size p.2 := by
  have hname : ∀ f ∈ files, f.name ≠ trailer := fun f hf => hr.name_ne h hstep hf
  obtain ⟨s, hfeed, hread⟩ :=
    h.load (fun f hf => h.loadable hf (hname f hf) (hstep f hf)) fs mem
  obtain ⟨s', hfeed', hrecv⟩ := hr
  rw [hfeed] at hfeed'
  cases hfeed'
  intro p hp
  obtain ⟨hfind, -, hiff⟩ := hread p hp
  have hf := (hrecv p.2 (mem_slots hp)).2
  rw [hfind] at hf
  obtain ⟨hdata, hsize⟩ := hiff.mp hf
  exact ⟨hname _ (mem_slots hp), hdata, hsize⟩

end

/-- **Receiving undoes packing**, entry after entry, exactly if every file survives in the
    block it goes to. -/
theorem receive_iff {files : List CpioFile} {stat : List UInt8} (h : Packed files stat)
    (fs : Nat → FsBlock) (mem : Nat → Mem) :
    (∀ f ∈ files, InStep f) ∧ RoundTrips files stat fs mem ↔
      ∀ p ∈ slots 1 files, Survives (fs p.1).size p.2 := by
  constructor
  · intro h
    obtain ⟨hstep, hr⟩ := h
    exact hr.survives h hstep
  · intro hs
    refine ⟨fun f hf => ?_, roundTrips_of_survives h hs⟩
    rw [← slots_snd 1 files] at hf
    obtain ⟨p, hp, rfl⟩ := List.mem_map.mp hf
    exact (hs p hp).inStep

/-- A file with the name `name` that holds one byte. -/
def oneByteFile (name : List UInt8) : CpioFile :=
  { name := name, data := [1], stat := List.replicate 18 0 }

/-- A file system of zeros. -/
def zeroBlocks : Nat → FsBlock := fun _ =>
  { type := 0, flags := 0, dnext := 0, next := 0, size := 0, data := 0, name := fun _ => 0 }

theorem packed_oneByteFile {name : List UInt8} (h : 0 ∉ name) (h1 : 1 ≤ name.length)
    (h21 : name.length ≤ 21) : Packed [oneByteFile name] (List.replicate 18 0) := by
  refine ⟨?_, List.nodup_singleton _, ?_, ?_, by decide⟩
  · simpa [oneByteFile] using ⟨h, h1, h21⟩
  · simp [oneByteFile, nblocks]
  · simp [oneByteFile]

/-- The file `a`. -/
theorem receive_a : (∀ f ∈ [oneByteFile [0x61]], InStep f) ∧
    RoundTrips [oneByteFile [0x61]] (List.replicate 18 0) zeroBlocks fun _ _ => 0 := by
  refine (receive_iff (packed_oneByteFile (by decide) (by decide) (by decide)) _ _).mpr ?_
  intro p hp
  obtain rfl := List.mem_singleton.mp hp
  exact ⟨by decide, .inl rfl, nofun⟩

/-- The file `ab` gets the padding of its name. -/
theorem receive_ab : Packed [oneByteFile [0x61, 0x62]] (List.replicate 18 0) ∧
    ¬ RoundTrips [oneByteFile [0x61, 0x62]] (List.replicate 18 0) zeroBlocks fun _ _ => 0 := by
  have hp : Packed [oneByteFile [0x61, 0x62]] (List.replicate 18 0) :=
    packed_oneByteFile (by decide) (by decide) (by decide)
  refine ⟨hp, fun hr => ?_⟩
  have hs := hr.survives hp (fun f hf => ?_) _ List.mem_cons_self
  · rcases hs.data with hodd | hzero
    · exact absurd hodd (by decide)
    · exact absurd (hzero 1 List.mem_cons_self) (by decide)
  · obtain rfl := List.mem_singleton.mp hf
    exact .inr (.inl rfl)

end LsePc.Bios
