/-
  File:      LsePc/Bios/Blocks.lean
  Subject:   How `fs_recv_cpio` splits the data of a file into blocks, and how it is read.

  Two loops share the counter `cur`. The next block is taken only when there is more to
  come, so the last block is never empty and may be full.

  * `Written`: blocks that hold some bytes, each in a frame of its own;
  * `Storing`: a file on its way, the blocks before the last one full;
  * `FileBlocks`: a file that is complete;
  * `Sys.Storing`, `path_storing`: from the last byte of the name on, over all runs;
  * **result** (`file_in_blocks`): after `n` bytes, and not before, the file is complete, and
    `fs_get_file_size` and `fs_print_file` find these bytes.
-/
import LsePc.Bios.Stored
import LsePc.Bios.Walks

namespace LsePc.Bios

open LsePc.Lib

/-! ## 1. Blocks that hold some bytes -/

/-- The blocks `l` hold the bytes `got`, each in a frame of its own. -/
structure Written (buff : Nat) (l : List Nat) (s : FsState) (got : List UInt8) : Prop where
  content : contentOf s l = got
  frames : (l.map fun j => (s.fs j).data).Nodup
  framed : ∀ j ∈ l, Framed [] buff s j

section
variable {buff b f size : Nat} {l : List Nat} {s s' : FsState} {got new : List UInt8} {m : Frames}

theorem contentOf_congr (hsize : ∀ j ∈ l, (s'.fs j).size = (s.fs j).size)
    (hdata : ∀ j ∈ l, (s'.fs j).data = (s.fs j).data)
    (hmem : ∀ j ∈ l, s'.mem (s.fs j).data = s.mem (s.fs j).data) :
    contentOf s' l = contentOf s l := by
  unfold contentOf
  refine List.flatMap_congr fun j hj => ?_
  rw [hsize j hj, hdata j hj, hmem j hj]

theorem Written.congr (h : Written buff l s got)
    (hsize : ∀ j ∈ l, (s'.fs j).size = (s.fs j).size)
    (hdata : ∀ j ∈ l, (s'.fs j).data = (s.fs j).data)
    (hmem : ∀ j ∈ l, s'.mem (s.fs j).data = s.mem (s.fs j).data)
    (huse : ∀ f, InUse s f → InUse s' f) : Written buff l s' got := by
  refine ⟨(contentOf_congr hsize hdata hmem).trans h.content, ?_, fun j hj => ?_⟩
  · rw [List.map_congr_left hdata]
    exact h.frames
  · exact (h.framed j hj).of_data (hdata j hj) (huse _)

theorem written_nil : Written buff [] s [] := ⟨rfl, List.nodup_nil, nofun⟩

/-- One block more. -/
theorem Written.snoc (h : Written buff l s got) (hb : Framed [] buff s b)
    (hown : (s.fs b).data ∉ l.map fun j => (s.fs j).data)
    (hnew : (List.range (s.fs b).size).map (s.mem (s.fs b).data) = new) :
    Written buff (l ++ [b]) s (got ++ new) := by
  refine ⟨?_, ?_, fun j hj => ?_⟩
  · have hold := h.content
    unfold contentOf at hold ⊢
    rw [List.flatMap_append, hold, List.flatMap_singleton, hnew]
  · rw [List.map_append, List.nodup_append]
    refine ⟨h.frames, List.nodup_singleton _, fun f hf f' hf' he => ?_⟩
    obtain rfl := he.trans (List.mem_singleton.mp hf')
    exact hown hf
  · rcases List.mem_append.mp hj with hj | hj
    · exact h.framed j hj
    · exact List.mem_singleton.mp hj ▸ hb

end

/-- A byte behind those that have been written. -/
theorem range_update {m : Mem} {l : List UInt8} (h : (List.range l.length).map m = l) (c : UInt8) :
    (List.range (l ++ [c]).length).map (Function.update m l.length c) = l ++ [c] := by
  rw [List.length_append, List.length_singleton, List.range_succ, List.map_append,
    List.map_singleton, Function.update_self]
  refine congrArg (· ++ [c]) (Eq.trans ?_ h)
  refine List.map_congr_left fun k hk => Function.update_of_ne ?_ ..
  exact Nat.ne_of_lt (List.mem_range.mp hk)

/-! ## 2. A file on its way -/

/-- The file at `b₀` has its data in the blocks `pre`, which are full and hold `old`, and in
    the first bytes of the block `b`, which are `new`. -/
structure Storing (buff b₀ n : Nat) (pre : List Nat) (b : Nat) (s : FsState)
    (old new : List UInt8) : Prop where
  opened : ∃ free e, Opened s b free e ∧ e.1 = b₀ ∧ e.blocks = pre ++ [b]
  type : (s.fs b₀).type = FS_TYPE_INODE
  written : Written buff pre s old
  full : ∀ j ∈ pre, (s.fs j).size = PAGE_SIZE
  length : old.length = PAGE_SIZE * pre.length
  size : (s.fs b).size = min PAGE_SIZE (n - old.length)
  framed : Framed [] buff s b
  own : (s.fs b).data ∉ pre.map fun j => (s.fs j).data
  bytes : (List.range new.length).map (s.mem (s.fs b).data) = new

/-- The file at `b₀` is complete: the blocks `bs` hold `data`. -/
structure FileBlocks (buff b₀ : Nat) (s : FsState) (data : List UInt8) (bs : List Nat) :
    Prop where
  /-- It is the newest entry. -/
  root : s.next 0 = b₀
  type : (s.fs b₀).type = FS_TYPE_INODE
  chain : Chain 0 s.next b₀ bs
  count : bs.length = (data.length + (PAGE_SIZE - 1)) / PAGE_SIZE
  sizes : ∃ pre b, bs = pre ++ [b] ∧ (∀ j ∈ pre, (s.fs j).size = PAGE_SIZE) ∧
    (s.fs b).size = data.length - PAGE_SIZE * (bs.length - 1) ∧ s.next b = 0
  written : Written buff bs s data

section
variable {buff b₀ n b nb i : Nat} {pre : List Nat} {s s₀ : FsState} {old new : List UInt8}
  {c : UInt8}

/-- The block of an open file is none of the blocks before it. -/
theorem Storing.notMem (h : Storing buff b₀ n pre b s old new) : b ∉ pre := by
  obtain ⟨free, e, ho, -, hblocks⟩ := h.opened
  have hnd := (List.nodup_append.mp ho.chain.nodup).1
  rw [hblocks, List.nodup_append] at hnd
  exact fun hb => hnd.2.2 b hb b List.mem_cons_self rfl

/-- **A byte of the data.** -/
theorem Storing.poke (h : Storing buff b₀ n pre b s old new) :
    Storing buff b₀ n pre b (s.poke (s.fs b).data new.length c) old (new ++ [c]) := by
  obtain ⟨free, e, ho, he, hblocks⟩ := h.opened
  refine ⟨⟨free, e, ho.of_links rfl rfl, he, hblocks⟩, h.type, ?_, h.full, h.length, h.size,
    ⟨h.framed.inUse, h.framed.ne, h.framed.notMem⟩, h.own, ?_⟩
  · refine h.written.congr (fun _ _ => rfl) (fun _ _ => rfl) (fun j hj => ?_) fun _ => id
    have hne : (s.fs j).data ≠ (s.fs b).data :=
      fun he => h.own (List.mem_map.mpr ⟨j, hj, he⟩)
    exact Function.update_of_ne hne ..
  · have hmem : (s.poke (s.fs b).data new.length c).mem (s.fs b).data =
        Function.update (s.mem (s.fs b).data) new.length c := Function.update_self ..
    exact (congrArg (fun m => (List.range (new ++ [c]).length).map m) hmem).trans
      (range_update h.bytes c)

/-- The block is full, or all of the data has come. -/
theorem Storing.filled (h : Storing buff b₀ n pre b s old new) (hlen : new.length = (s.fs b).size) :
    Written buff (pre ++ [b]) s (old ++ new) := by
  have hbytes := h.bytes
  rw [hlen] at hbytes
  exact h.written.snoc h.framed h.own hbytes

theorem nextBlock_type {j : Nat} (hj : j ≠ nb) :
    ((s.nextBlock b nb).fs j).type = (s.fs j).type := by
  unfold FsState.nextBlock
  dsimp only
  rw [FsState.fs_setBlock_ne hj]
  refine FsState.field_setBlock (p := FsBlock.type) ?_ j
  exact fun _ => rfl

theorem openFile_type : ((s.openFile buff b).fs b).type = FS_TYPE_INODE := by
  unfold FsState.openFile
  dsimp only
  rw [FsState.field_setBlock (p := FsBlock.type), FsState.field_setBlock (p := FsBlock.type)]
  · rw [FsState.fs_setBlock]
  all_goals exact fun _ => rfl

/-- **The frame of a block**, before its first byte. -/
theorem chunk_storing {free : List Nat} {e : Entry} {y : Sys} (hsess : Session [] [] buff s₀ s)
    (ho : Opened s b free e) (he : e.1 = b₀) (hblocks : e.blocks = pre ++ [b])
    (htype : (s.fs b₀).type = FS_TYPE_INODE) (hw : Written buff pre s old)
    (hfull : ∀ j ∈ pre, (s.fs j).size = PAGE_SIZE) (hlen : old.length = PAGE_SIZE * pre.length)
    (hn : old.length < n) (hc : Chunk buff b n old.length s y) :
    (∃ msg, y = .panic msg) ∨
      ∃ s', y = .recv buff (.data b n old.length 0) s' ∧ Storing buff b₀ n pre b s' old [] := by
  cases hc with
  | panic => exact .inl ⟨_, rfl⟩
  | done h => exact absurd hn h
  | @data f m _ ha =>
    obtain ⟨-, hne, -⟩ := hsess.alloc ha
    obtain ⟨h0, -⟩ := allocFrame_refCnt ha
    have huse : ∀ f', InUse s f' → InUse { s with frames := m } f' :=
      fun f' hu => (inUse_alloc ha).mpr (.inr hu)
    have hself : (s.giveFrame b f (min PAGE_SIZE (n - old.length)) m).fs b =
        { s.fs b with data := f, size := min PAGE_SIZE (n - old.length) } := Function.update_self ..
    have hb : b ∉ pre := by
      have hnd := (List.nodup_append.mp ho.chain.nodup).1
      rw [hblocks, List.nodup_append] at hnd
      exact fun hb => hnd.2.2 b hb b List.mem_cons_self rfl
    have hother : ∀ j ∈ pre,
        (s.giveFrame b f (min PAGE_SIZE (n - old.length)) m).fs j = s.fs j := by
      intro j hj
      have hne : j ≠ b := fun e => hb (e ▸ hj)
      exact Function.update_of_ne hne ..
    refine .inr ⟨_, rfl, ⟨free, e, ho.of_links rfl FsState.giveFrame_next, he, hblocks⟩, ?_, ?_,
      fun j hj => ?_, hlen, ?_, ?_, ?_, rfl⟩
    · refine Eq.trans (FsState.field_setBlock (p := FsBlock.type) ?_ b₀) htype
      exact fun _ => rfl
    · refine hw.congr (fun j hj => ?_) (fun j hj => ?_) (fun _ _ => rfl) huse
      · rw [hother j hj]
      · rw [hother j hj]
    · rw [hother j hj]
      exact hfull j hj
    · rw [hself]
    · refine ⟨?_, ?_, List.not_mem_nil⟩
      · rw [hself]
        exact (inUse_alloc ha).mpr (.inl rfl)
      · rw [hself]
        exact hne
    · rw [hself]
      intro hm
      obtain ⟨j, hj, hd⟩ := List.mem_map.mp hm
      rw [hother j hj] at hd
      -- the frame of another block is in use
      exact (hw.framed j hj).inUse (hd ▸ h0)

/-- A full block, and the next one taken. -/
theorem Storing.grow {y : Sys} (h : Storing buff b₀ n pre b s old new)
    (hsess : Session [] [] buff s₀ s) (hfull : new.length = PAGE_SIZE)
    (hn : old.length + new.length < n) (hnb : s.firstFreeBlock = nb) (h0 : nb ≠ 0)
    (hc : Chunk buff nb n (old.length + new.length) (s.nextBlock b nb) y) :
    (∃ msg, y = .panic msg) ∨ ∃ s', y = .recv buff (.data nb n (old.length + new.length) 0) s' ∧
      Storing buff b₀ n (pre ++ [b]) nb s' (old ++ new) [] := by
  obtain ⟨free, e, ho, he, hblocks⟩ := h.opened
  obtain ⟨free, rfl, -⟩ := free_cons ho.freeList hnb h0
  have hsize : ∀ j, ((s.nextBlock b nb).fs j).size = (s.fs j).size :=
    FsState.nextBlock_field (fun _ _ => rfl) fun _ _ => rfl
  have hdata : ∀ j, ((s.nextBlock b nb).fs j).data = (s.fs j).data :=
    FsState.nextBlock_field (fun _ _ => rfl) fun _ _ => rfl
  have hlast : (s.fs b).size = PAGE_SIZE := by
    have hsz := h.size
    omega
  have hw := h.filled (hfull.trans hlast.symm)
  have hb₀ : b₀ ≠ nb := by
    have hnot := ho.notMem (j := b₀) (he ▸ List.mem_cons_self)
    exact fun e => hnot (e ▸ List.mem_cons_self)
  rw [← List.length_append] at hc hn ⊢
  refine chunk_storing (hsess.nextBlock List.not_mem_nil List.not_mem_nil)
    (ho.grow rfl FsState.nextBlock_next) he ?_ ?_ ?_ (fun j hj => ?_) ?_ hn hc
  · change e.blocks ++ [nb] = _
    rw [hblocks]
  · exact (nextBlock_type hb₀).trans h.type
  · exact hw.congr (fun j _ => hsize j) (fun j _ => hdata j) (fun _ _ => rfl) fun _ => id
  · rw [hsize]
    rcases List.mem_append.mp hj with hj | hj
    · exact h.full j hj
    · rw [List.mem_singleton.mp hj, hlast]
  · rw [List.length_append, List.length_append, h.length, hfull, List.length_singleton,
      Nat.mul_succ]

/-- **The end of a file.** -/
theorem Storing.close (h : Storing buff b₀ n pre b s old new) (hne : new ≠ [])
    (hn : n = old.length + new.length) (hlen : new.length ≤ PAGE_SIZE) :
    FileBlocks buff b₀ (s.closeFile b) (old ++ new) (pre ++ [b]) := by
  obtain ⟨free, e, ho, he, hblocks⟩ := h.opened
  have hpos := List.length_pos_of_ne_nil hne
  have hsize : (s.fs b).size = new.length := by
    rw [h.size, hn, Nat.add_sub_cancel_left]
    exact Nat.min_eq_right hlen
  have hfields : ∀ j, ((s.closeFile b).fs j).size = (s.fs j).size :=
    FsState.field_setBlock fun _ => rfl
  have hchain := ho.close.2
  have hhead := (Chain.cons_iff.mp hchain).1
  have hroot : (s.closeFile b).next 0 = b₀ := hhead.trans he
  rw [hhead, he, hblocks] at hchain
  have hold := h.length
  unfold PAGE_SIZE at hlen hold
  refine ⟨hroot, ?_, hchain, ?_, ⟨pre, b, rfl, fun j hj => ?_, ?_, ?_⟩, ?_⟩
  · refine Eq.trans (FsState.field_setBlock (p := FsBlock.type) ?_ b₀) h.type
    exact fun _ => rfl
  · rw [List.length_append, List.length_append, List.length_singleton]
    unfold PAGE_SIZE
    omega
  · rw [hfields]
    exact h.full j hj
  · rw [hfields, hsize, List.length_append, List.length_append, List.length_singleton]
    unfold PAGE_SIZE
    omega
  · rw [FsState.closeFile_next, Function.update_self]
  · refine (h.filled hsize.symm).congr (fun j _ => hfields j) (fun j _ => ?_) (fun _ _ => rfl)
      fun _ => id
    refine FsState.field_setBlock (p := FsBlock.data) ?_ j
    exact fun _ => rfl

end

/-! ## 3. Runs -/

/-- What comes in on COM2. -/
def Input.bytes : Input → List UInt8
  | .com2 c => [c]
  | .recvfs | .com1 _ => []

def com2Bytes (is : List Input) : List UInt8 := is.flatMap Input.bytes

/-- What has become of a file of `n` bytes when `got` has come. -/
inductive Progress (buff b₀ n : Nat) : List UInt8 → Sys → Prop where
  | data {pre : List Nat} {b : Nat} {s : FsState} {old new : List UInt8}
      (h : Storing buff b₀ n pre b s old new) (hi : new.length < PAGE_SIZE)
      (hn : old.length + new.length < n) :
      Progress buff b₀ n (old ++ new)
        (.recv buff (.data b n (old.length + new.length) new.length) s)
  | done {s : FsState} {got : List UInt8} {bs : List Nat} (h : FileBlocks buff b₀ s got bs)
      (hn : got.length = n) : Progress buff b₀ n got (.recv buff .magic0 s)
  | panic {got : List UInt8} {msg : String} : Progress buff b₀ n got (.panic msg)

section
variable {buff b₀ n b : Nat} {pre : List Nat} {s s₀ : FsState} {old new got : List UInt8}
  {c : UInt8} {x y : Sys}

theorem Storing.turn (h : Storing buff b₀ n pre b s old new) (hi : new.length < PAGE_SIZE)
    (hn : old.length + new.length < n) (hsess : Session [] [] buff s₀ s)
    (ht : Turn buff s c (.data b n (old.length + new.length) new.length) y) :
    Progress buff b₀ n (old ++ new ++ [c]) y := by
  have hlen : (new ++ [c]).length = new.length + 1 := List.length_append
  have hcur : old.length + (new ++ [c]).length = old.length + new.length + 1 := by
    rw [hlen, Nat.add_assoc]
  have h' : Storing buff b₀ n pre b (s.poke (s.fs b).data new.length c) old (new ++ [c]) := h.poke
  have hsess' := hsess.poke (f := (s.fs b).data) (i := new.length) (c := c) List.not_mem_nil
  rw [List.append_assoc]
  cases ht with
  | panic => exact .panic
  | head hw _ _ _ => cases hw
  | trailer hw => cases hw
  | file hw _ _ _ => cases hw
  | byte hi' hcur' =>
    have hdata := Progress.data h' (hlen ▸ hi') (hcur ▸ hcur')
    rw [hcur, hlen] at hdata
    exact hdata
  | block hi' hcur' hnb h0 hc =>
    rw [← hcur] at hcur' hc
    have hfull : (new ++ [c]).length = PAGE_SIZE := by omega
    rcases h'.grow hsess' hfull hcur' hnb h0 hc with hp | hgrow
    · obtain ⟨msg, rfl⟩ := hp
      exact .panic
    · obtain ⟨s', rfl, hs'⟩ := hgrow
      rw [← List.length_append] at hcur' ⊢
      have hdata := Progress.data hs' (by decide) hcur'
      rw [List.append_nil] at hdata
      exact hdata
  | last hcur' =>
    have hn' : n = old.length + (new ++ [c]).length := by omega
    refine .done (h'.close (List.concat_ne_nil c new) hn' (by omega)) ?_
    rw [List.length_append]
    exact hn'.symm

/-- Nothing happens without a byte on COM2. -/
theorem Progress.idle {i : Input} (h : Progress buff b₀ n got x) (hq : i ≠ .com1 quitKey)
    (hi : i.bytes = []) : x.step i = x := by
  cases i with
  | com2 c => cases hi
  | recvfs => cases h <;> rfl
  | com1 c =>
    have hc : c ≠ quitKey := fun he => hq (congrArg Input.com1 he)
    cases h with
    | data _ _ _ => exact if_neg hc
    | done _ _ => exact if_neg hc
    | panic => rfl

/-- **One step**, with no key that aborts. -/
theorem step_progress {i : Input} (h : Progress buff b₀ n got x) (hsafe : x.Safe [] [] s₀)
    (hq : i ≠ .com1 quitKey) (hlen : (got ++ i.bytes).length ≤ n) (hs : Step x i y) :
    Progress buff b₀ n (got ++ i.bytes) y := by
  subst hs
  by_cases hi : i.bytes = []
  · rw [h.idle hq hi, hi, List.append_nil]
    exact h
  · cases i with
    | recvfs => exact absurd rfl hi
    | com1 c => exact absurd rfl hi
    | com2 c =>
      cases h with
      | data h hi hn => exact h.turn hi hn hsafe.1 (recvb_turn _ _ c _)
      | panic => exact .panic
      | done _ hn =>
        rw [List.length_append, hn] at hlen
        exact absurd hlen (Nat.not_succ_le_self n)

/-- **All runs** from the last byte of a name on, up to the end of the file. -/
theorem path_progress {is : List Input} (hp : Path Step x is y) :
    ∀ {got : List UInt8}, Progress buff b₀ n got x → x.Safe [] [] s₀ → .com1 quitKey ∉ is →
      (got ++ com2Bytes is).length ≤ n → Progress buff b₀ n (got ++ com2Bytes is) y := by
  induction hp with
  | nil x =>
    intro got h _ _ _
    rw [com2Bytes, List.flatMap_nil, List.append_nil]
    exact h
  | @cons x _ y i is hs _ ih =>
    intro got h hsafe hq hlen
    obtain ⟨hi, hq⟩ := not_or.mp (List.mem_cons.not.mp hq)
    rw [com2Bytes, List.flatMap_cons, ← List.append_assoc] at hlen ⊢
    have hlen' : (got ++ i.bytes).length ≤ n := by
      rw [List.length_append] at hlen
      exact Nat.le_trans (Nat.le_add_right ..) hlen
    exact ih (step_progress h hsafe (Ne.symm hi) hlen' hs) (step_safe hsafe hs) hq hlen

/-- **The last byte of a name**: the file has its first block. -/
theorem open_progress {w : Wait} {s₁ : FsState} (hsafe : (Sys.recv buff w s).Safe [] [] s₀)
    (hw : w.inData = false) (hopen : recvb buff s c w = .recv buff (.data b₀ n 0 0) s₁) :
    n = filesizeAt (s₁.mem buff) ∧ Progress buff b₀ n [] (.recv buff (.data b₀ n 0 0) s₁) := by
  obtain ⟨hsess, hfree⟩ := hsafe
  have ht := recvb_turn buff s c w
  rw [hopen] at ht
  generalize hy : Sys.recv buff (.data b₀ n 0 0) s₁ = y at ht
  cases ht with
  | panic => cases hy
  | @head _ w' _ hw' _ _ =>
    cases hy
    cases hw'
  | trailer _ => cases hy
  | @file w b y _ hb h0 hc =>
    obtain ⟨free, hchain, -⟩ := (Wait.safe_iff hw).mp hfree
    obtain ⟨free, rfl, -⟩ := free_cons hchain hb h0
    subst hy
    cases hc with
    | data hcur ha =>
      have hsess' := hsess.poke (f := buff) (i := w.offset) (c := c) List.not_mem_nil
      obtain hp | ⟨s', hs', hstoring⟩ := chunk_storing (hsess'.openFile List.not_mem_nil)
        (opened_new hchain rfl FsState.openFile_next) rfl rfl openFile_type written_nil nofun rfl
        hcur (.data hcur ha)
      · obtain ⟨msg, hp⟩ := hp
        cases hp
      · cases hs'
        exact ⟨rfl, Progress.data hstoring (by decide) hcur⟩
  | byte _ _ => cases hw
  | block _ _ _ _ _ => cases hw
  | last _ => cases hw

end

/-! ## 4. Files -/

theorem length_contentOf (s : FsState) (l : List Nat) :
    (contentOf s l).length = (l.map fun j => (s.fs j).size).sum := by
  unfold contentOf
  rw [List.length_flatMap]
  simp only [List.length_map, List.length_range]

/-- What `fs_get_file_size` and `fs_print_file` make of a file. -/
theorem FileBlocks.read {buff b : Nat} {s : FsState} {data : List UInt8} {bs : List Nat}
    (h : FileBlocks buff b s data bs) (hlen : bs.length ≤ NB_FRAMES) :
    fsGetFileSize s b = data.length ∧ fsPrintFile s b = data := by
  have hcontent := h.written.content
  constructor
  · unfold fsGetFileSize
    rw [if_neg (not_not.mpr h.type), h.chain.walk hlen, ← length_contentOf, hcontent]
  · unfold fsPrintFile
    rw [h.chain.walk hlen]
    exact hcontent

/-- **The data of a file**, with any keys on COM1 in between but the one that aborts: the file
    is complete with the byte `n` and not before, and both readers find what has come. -/
theorem file_in_blocks {buff b n : Nat} {w : Wait} {s s₁ t : FsState} {c : UInt8}
    {is : List Input} {y : Sys} (h : Reach Init Step (.recv buff w s)) (hw : w.inData = false)
    (hopen : recvb buff s c w = .recv buff (.data b n 0 0) s₁)
    (hp : Path Step (.recv buff (.data b n 0 0) s₁) is y) (hq : .com1 quitKey ∉ is)
    (hy : y.state = some t) :
    n = filesizeAt (s₁.mem buff) ∧
    ((com2Bytes is).length < n → ∃ b' i, y = .recv buff (.data b' n (com2Bytes is).length i) t) ∧
    ((com2Bytes is).length = n → y = .recv buff .magic0 t ∧
      ∃ bs, FileBlocks buff b t (com2Bytes is) bs ∧ fsGetFileSize t b = n ∧
        fsPrintFile t b = com2Bytes is) := by
  have hsafe := reach_safe h s
  obtain ⟨hn, hopened⟩ := open_progress hsafe hw hopen
  have hstep : Step (.recv buff w s) (.com2 c) (.recv buff (.data b n 0 0) s₁) := hopen
  have hord := reach_ordered (hp.reach (.step h hstep)) hy
  refine ⟨hn, fun hlt => ?_, fun he => ?_⟩
  · have hprog := path_progress hp hopened (step_safe hsafe hstep) hq (Nat.le_of_lt hlt)
    rw [List.nil_append] at hprog
    generalize com2Bytes is = got at *
    cases hprog with
    | data h _ _ =>
      cases hy
      rw [List.length_append]
      exact ⟨_, _, rfl⟩
    | done _ hdone => exact absurd hdone (Nat.ne_of_lt hlt)
    | panic => cases hy
  · have hprog := path_progress hp hopened (step_safe hsafe hstep) hq (Nat.le_of_eq he)
    rw [List.nil_append] at hprog
    generalize com2Bytes is = got at *
    cases hprog with
    | data _ _ hlt =>
      rw [← List.length_append] at hlt
      exact absurd he (Nat.ne_of_lt hlt)
    | @done s got bs hfile _ =>
      cases hy
      obtain ⟨l, hl, hb⟩ := hord.chain (hfile.root ▸ hord.root)
      obtain rfl := hfile.chain.unique hl
      obtain ⟨hsize, hprint⟩ := hfile.read hb.length_le
      exact ⟨rfl, bs, hfile, hsize.trans he, hprint⟩
    | panic => cases hy

/-- The header of a file of 4097 bytes. -/
def longHeader : List UInt8 :=
  [0xC7, 0x71] ++ List.replicate 18 0 ++ [1, 0, 0, 0, 1, 0x10, 0]

/-- Before the name, and behind it. -/
def namedFs : FsState :=
  match (Input.recvfs :: (longHeader.take 26).map .com2).foldl Sys.step (.idle blankFs) with
  | .recv _ _ s => s
  | _ => blankFs

def openedFs : FsState :=
  match recvb 3 namedFs 0 (.name 0) with
  | .recv _ _ s => s
  | _ => blankFs

/-- The bytes of a block up to the last one but one. -/
theorem data_path (l : List UInt8) {buff b n cur i : Nat} {s : FsState}
    (hi : i + l.length < PAGE_SIZE) (hn : cur + l.length < n) :
    ∃ mem, Path Step (.recv buff (.data b n cur i) s) (l.map .com2)
      (.recv buff (.data b n (cur + l.length) (i + l.length)) { s with mem := mem }) := by
  induction l generalizing cur i s with
  | nil => exact ⟨s.mem, .nil _⟩
  | cons c l ih =>
    rw [List.length_cons] at hi hn
    have hstep : Step (.recv buff (.data b n cur i) s) (.com2 c)
        (.recv buff (.data b n (cur + 1) (i + 1)) (s.poke (s.fs b).data i c)) :=
      if_pos ⟨by omega, by omega⟩
    obtain ⟨mem, hpath⟩ := @ih (cur + 1) (i + 1) (s.poke (s.fs b).data i c) (by omega) (by omega)
    rw [List.length_cons, Nat.add_comm l.length, ← Nat.add_assoc, ← Nat.add_assoc]
    exact ⟨mem, .cons hstep hpath⟩

/-- A file of a block and one byte. -/
theorem file_in_blocks_two : ∃ t bs, Path Step (.recv 3 (.data 1 4097 0 0) openedFs)
    ((List.replicate 4097 7).map .com2) (.recv 3 .magic0 t) ∧
    FileBlocks 3 1 t (List.replicate 4097 7) bs ∧ bs.length = 2 ∧ fsGetFileSize t 1 = 4097 ∧
      fsPrintFile t 1 = List.replicate 4097 7 := by
  have hnamed : (Input.recvfs :: (longHeader.take 26).map .com2).foldl Sys.step (.idle blankFs) =
      .recv 3 (.name 0) namedFs := rfl
  have hreach : Reach Init (Guarded Step CleanInput) (.recv 3 (.name 0) namedFs) :=
    hnamed ▸ reach_foldl (.init ⟨_, _, rfl⟩) (by decide)
  have hopen : recvb 3 namedFs 0 (.name 0) = .recv 3 (.data 1 4097 0 0) openedFs := rfl
  obtain ⟨mem, hfirst⟩ := @data_path (List.replicate 4095 7) 3 1 4097 0 0 openedFs
    (by rw [List.length_replicate]; decide) (by rw [List.length_replicate]; decide)
  rw [List.length_replicate] at hfirst
  obtain ⟨u, hu⟩ : ∃ u, recvb 3 { openedFs with mem := mem } 7
      (.data 1 4097 (0 + 4095) (0 + 4095)) = .recv 3 (.data 2 4097 4096 0) u := ⟨_, rfl⟩
  obtain ⟨t, ht⟩ : ∃ t, recvb 3 u 7 (.data 2 4097 4096 0) = .recv 3 .magic0 t := ⟨_, rfl⟩
  have hlast : Path Step (.recv 3 (.data 1 4097 (0 + 4095) (0 + 4095)) { openedFs with mem := mem })
      ([7, 7].map .com2) (.recv 3 .magic0 t) := .cons hu (.cons ht (.nil _))
  have hpath := hfirst.append hlast
  rw [← List.map_append] at hpath
  have hbytes : List.replicate 4095 7 ++ [7, 7] = List.replicate 4097 (7 : UInt8) :=
    (List.replicate_add 4095 2 (7 : UInt8)).symm
  rw [hbytes] at hpath
  have hcom2 : com2Bytes ((List.replicate 4097 7).map .com2) = List.replicate 4097 7 := by
    unfold com2Bytes
    rw [List.flatMap_map]
    exact List.flatMap_singleton' _
  have hquit : Input.com1 quitKey ∉ (List.replicate 4097 7).map Input.com2 := by
    intro hmem
    obtain ⟨c, -, hc⟩ := List.mem_map.mp hmem
    cases hc
  obtain ⟨-, -, hdone⟩ := file_in_blocks hreach.of_guarded rfl hopen hpath hquit rfl
  rw [hcom2, List.length_replicate] at hdone
  obtain ⟨-, bs, hfile, hsize, hprint⟩ := hdone rfl
  refine ⟨t, bs, hpath, hfile, ?_, hsize, hprint⟩
  rw [hfile.count, List.length_replicate]
  rfl

end LsePc.Bios
