/-
  File:      LsePc/Bios/Stored.lean
  Subject:   What later sessions of `fs_recv_cpio` leave of a stored file.

  No block ever comes back to the free list and no frame that was handed out is handed out
  again, so what is written later lies elsewhere. An aborted file may run into the free
  list, and so into files received later; it is written no more.

  * `Opened`: the file that is received runs on into the free list, whatever the other
    entries do;
  * `Untouched`: some blocks and the bytes of some frames are as they were; `Sys.Safe`: so
    they stay, step by step;
  * `FileKept`: the chain, sizes, pointers, name and bytes of a file;
  * **result** (`stored_file_kept`): from the byte that completes a file, over all runs.
-/
import LsePc.Bios.Ownership

namespace LsePc.Bios

open LsePc.Lib

/-! ## 1. The file that is received -/

/-- The blocks of `e`, the last of which is `b`, and then the free list. -/
structure Opened (s : FsState) (b : Nat) (free : List Nat) (e : Entry) : Prop where
  freeList : Chain 0 s.next s.firstFreeBlock free
  chain : Chain 0 s.next e.1 (e.blocks ++ free)
  last : ∃ pre, e.blocks = pre ++ [b]
  root : s.next 0 = e.1

section
variable {s s' : FsState} {b nb : Nat} {free : List Nat} {e : Entry}

theorem Opened.of_links (h : Opened s b free e) (hf : s'.firstFreeBlock = s.firstFreeBlock)
    (hn : s'.next = s.next) : Opened s' b free e := by
  refine ⟨?_, ?_, h.last, ?_⟩
  · rw [hf, hn]
    exact h.freeList
  · rw [hn]
    exact h.chain
  · rw [hn]
    exact h.root

theorem Opened.mem (h : Opened s b free e) : b ∈ e.blocks := by
  obtain ⟨pre, hpre⟩ := h.last
  rw [hpre]
  exact List.mem_append_right pre List.mem_cons_self

/-- No block of the file is free. -/
theorem Opened.notMem (h : Opened s b free e) {j : Nat} (hj : j ∈ e.blocks) : j ∉ free :=
  fun hm => (List.nodup_append.mp h.chain.nodup).2.2 j hj j hm rfl

theorem opened_new (h : Chain 0 s.next s.firstFreeBlock (b :: free))
    (hf : s'.firstFreeBlock = s.next b) (hn : s'.next = Function.update s.next 0 b) :
    Opened s' b free (b, []) := by
  obtain ⟨hb, hb0, hfree⟩ := Chain.cons_iff.mp h
  rw [hb] at hb0 hfree
  have hfree' := hfree.update (v := b) hfree.null_notMem
  refine ⟨?_, ?_, ⟨[], rfl⟩, ?_⟩
  · rw [hf, hn]
    exact hfree'
  · rw [hn]
    refine .cons hb0 ?_
    rw [Function.update_of_ne hb0]
    exact hfree'
  · rw [hn, Function.update_self]

/-- The last block leads to the first free one already. -/
theorem Opened.grow (h : Opened s b (nb :: free) e) (hf : s'.firstFreeBlock = s.next nb)
    (hn : s'.next = Function.update s.next b nb) : Opened s' nb free (e.1, e.2 ++ [nb]) := by
  obtain ⟨pre, hpre⟩ := h.last
  have hchain := h.chain
  rw [hpre, List.append_assoc] at hchain
  have hnext := (Chain.cons_iff.mp (Chain.cons_iff.mp hchain.split).2.2).1
  have hself : s'.next = s.next := by rw [hn, ← hnext, Function.update_eq_self]
  obtain ⟨hnb, -, hfree⟩ := Chain.cons_iff.mp h.freeList
  refine ⟨?_, ?_, ⟨e.blocks, rfl⟩, ?_⟩
  · rw [hf, hself, ← hnb]
    exact hfree
  · rw [hself]
    have hc := h.chain
    rw [List.append_cons] at hc
    exact hc
  · rw [hself]
    exact h.root

/-- **The end of a file**: its chain is what was received, and not free. -/
theorem Opened.close (h : Opened s b free e) :
    let s' := s.setBlock b fun x => { x with next := 0 }
    Chain 0 s'.next s'.firstFreeBlock free ∧ Chain 0 s'.next (s'.next 0) e.blocks := by
  intro s'
  have hn : s'.next = Function.update s.next b 0 := FsState.next_setNext fun _ => rfl
  obtain ⟨pre, hpre⟩ := h.last
  have hb0 : 0 ≠ b := fun e0 =>
    h.chain.null_notMem (List.mem_append_left free (e0 ▸ h.mem))
  constructor
  · rw [hn]
    exact h.freeList.update (h.notMem h.mem)
  · have hchain := h.chain
    rw [hpre, List.append_assoc] at hchain
    rw [hn, Function.update_of_ne hb0, h.root, hpre]
    exact hchain.cut

end

/-! ## 2. What stays as it is -/

/-- The blocks `bs` and the bytes of the frames `frs` are as they were. -/
structure Untouched (bs frs : List Nat) (s₀ s : FsState) : Prop where
  blocks : ∀ j ∈ bs, s.fs j = s₀.fs j
  bytes : ∀ f ∈ frs, s.mem f = s₀.mem f

def InUse (s : FsState) (f : Nat) : Prop := (s.frames.frames f).refCnt ≠ 0

/-- A session after the state `s₀`, apart from the blocks `bs` and the frames `frs`. -/
structure Session (bs frs : List Nat) (buff : Nat) (s₀ s : FsState) : Prop where
  root : 0 ∉ bs
  untouched : Untouched bs frs s₀ s
  buff_notMem : buff ∉ frs
  buff_refCnt : (s.frames.frames buff).refCnt = 1
  inUse : ∀ f ∈ frs, InUse s f

/-- The free blocks are others. -/
def FreeApart (bs : List Nat) (s : FsState) : Prop :=
  ∃ free, Chain 0 s.next s.firstFreeBlock free ∧ ∀ j ∈ free, j ∉ bs

/-- The block has a frame of its own. -/
structure Framed (frs : List Nat) (buff : Nat) (s : FsState) (j : Nat) : Prop where
  inUse : InUse s (s.fs j).data
  ne : (s.fs j).data ≠ buff
  notMem : (s.fs j).data ∉ frs

def Wait.Safe (bs frs : List Nat) (buff : Nat) (s : FsState) : Wait → Prop
  | .data b _ _ _ => ∃ free e, Opened s b free e ∧ (∀ j ∈ e.blocks ++ free, j ∉ bs) ∧
      ∀ j ∈ e.blocks, Framed frs buff s j
  | .magic0 | .magic1 | .header _ | .name _ => FreeApart bs s

/-- **Apart from `bs` and `frs`**, all of which are as they were in `s₀`. -/
def Sys.Safe (bs frs : List Nat) (s₀ : FsState) : Sys → Prop
  | .idle s => 0 ∉ bs ∧ Untouched bs frs s₀ s ∧ (∀ f ∈ frs, InUse s f) ∧ FreeApart bs s
  | .recv buff w s => Session bs frs buff s₀ s ∧ w.Safe bs frs buff s
  | .panic _ => True

section
variable {bs frs free : List Nat} {buff b f i : Nat} {s₀ s : FsState} {e : Entry}
  {g : FsBlock → FsBlock} {c : UInt8} {m : Frames}

theorem Session.setBlock (h : Session bs frs buff s₀ s) (hb : b ∉ bs) :
    Session bs frs buff s₀ (s.setBlock b g) := by
  refine ⟨h.root, ⟨fun j hj => ?_, h.untouched.bytes⟩, h.buff_notMem, h.buff_refCnt, h.inUse⟩
  have hne : j ≠ b := fun e => hb (e ▸ hj)
  exact (Function.update_of_ne hne ..).trans (h.untouched.blocks j hj)

theorem Session.poke (h : Session bs frs buff s₀ s) (hf : f ∉ frs) :
    Session bs frs buff s₀ (s.poke f i c) := by
  refine ⟨h.root, ⟨h.untouched.blocks, fun f' hf' => ?_⟩, h.buff_notMem, h.buff_refCnt, h.inUse⟩
  have hne : f' ≠ f := fun e => hf (e ▸ hf')
  exact (Function.update_of_ne hne ..).trans (h.untouched.bytes f' hf')

/-- The list moves on. -/
theorem Session.firstFree (h : Session bs frs buff s₀ s) (v : Nat) :
    Session bs frs buff s₀ { s with firstFreeBlock := v } :=
  ⟨h.root, ⟨h.untouched.blocks, h.untouched.bytes⟩, h.buff_notMem, h.buff_refCnt, h.inUse⟩

theorem inUse_alloc (ha : allocFrame s.frames = some (f, m)) {f' : Nat} :
    InUse { s with frames := m } f' ↔ f' = f ∨ InUse s f' := by
  obtain ⟨-, hm⟩ := allocFrame_refCnt ha
  change (m.frames f').refCnt ≠ 0 ↔ _
  rw [hm, Function.update_apply]
  by_cases he : f' = f
  · rw [if_pos he]
    exact iff_of_true Nat.one_ne_zero (.inl he)
  · rw [if_neg he, or_iff_right he]
    rfl

/-- **A new frame** is none of those in use. -/
theorem Session.alloc (h : Session bs frs buff s₀ s) (ha : allocFrame s.frames = some (f, m)) :
    Session bs frs buff s₀ { s with frames := m } ∧ f ≠ buff ∧ f ∉ frs := by
  obtain ⟨h0, hm⟩ := allocFrame_refCnt ha
  have hne : f ≠ buff := by
    intro e
    rw [e, h.buff_refCnt] at h0
    cases h0
  refine ⟨⟨h.root, ⟨h.untouched.blocks, h.untouched.bytes⟩, h.buff_notMem, ?_, fun f' hf' => ?_⟩,
    hne, fun hf => h.inUse f hf h0⟩
  · change (m.frames buff).refCnt = 1
    rw [hm, Function.update_of_ne hne.symm]
    exact h.buff_refCnt
  · exact (inUse_alloc ha).mpr (.inr (h.inUse f' hf'))

theorem Framed.of_data {s' : FsState} {j : Nat} (h : Framed frs buff s j)
    (hd : (s'.fs j).data = (s.fs j).data) (hu : InUse s (s.fs j).data → InUse s' (s.fs j).data) :
    Framed frs buff s' j := by
  refine ⟨?_, ?_, ?_⟩
  · rw [hd]
    exact hu h.inUse
  · rw [hd]
    exact h.ne
  · rw [hd]
    exact h.notMem

/-- Before the data of a file only the free blocks matter. -/
theorem Wait.safe_iff {w : Wait} (hw : w.inData = false) :
    w.Safe bs frs buff s ↔ FreeApart bs s := by
  cases w with
  | data b n cur i => cases hw
  | magic0 => exact Iff.rfl
  | magic1 => exact Iff.rfl
  | header cur => exact Iff.rfl
  | name i => exact Iff.rfl

theorem Session.openFile (h : Session bs frs buff s₀ s) (hb : b ∉ bs) :
    Session bs frs buff s₀ (s.openFile buff b) := by
  unfold FsState.openFile
  exact (((h.firstFree _).setBlock hb).setBlock h.root).setBlock hb

theorem Session.nextBlock {nb : Nat} (h : Session bs frs buff s₀ s) (hb : b ∉ bs)
    (hnb : nb ∉ bs) : Session bs frs buff s₀ (s.nextBlock b nb) := by
  unfold FsState.nextBlock
  exact ((h.firstFree _).setBlock hb).setBlock hnb

theorem Session.closeFile (h : Session bs frs buff s₀ s) (ho : Opened s b free e)
    (hout : ∀ j ∈ e.blocks ++ free, j ∉ bs) :
    (Sys.recv buff .magic0 (s.closeFile b)).Safe bs frs s₀ :=
  ⟨h.setBlock (hout b (List.mem_append_left free ho.mem)), free, ho.close.1,
    fun j hj => hout j (List.mem_append_right _ hj)⟩

theorem chunk_safe {n cur : Nat} {y : Sys} (h : Session bs frs buff s₀ s) (ho : Opened s b free e)
    (hout : ∀ j ∈ e.blocks ++ free, j ∉ bs) (hset : ∀ j ∈ e.blocks, j ≠ b → Framed frs buff s j)
    (hc : Chunk buff b n cur s y) : y.Safe bs frs s₀ := by
  have hb : b ∉ bs := hout b (List.mem_append_left free ho.mem)
  cases hc with
  | panic => trivial
  | done _ => exact h.closeFile ho hout
  | @data f m _ ha =>
    obtain ⟨h', hne, hnm⟩ := h.alloc ha
    refine ⟨h'.setBlock hb, free, e, ho.of_links rfl FsState.giveFrame_next, hout, fun j hj => ?_⟩
    by_cases hjb : j = b
    · -- the block that gets the frame
      subst hjb
      have hdata : ((s.giveFrame j f (min PAGE_SIZE (n - cur)) m).fs j).data = f := by
        simp [FsState.giveFrame, FsState.setBlock]
      refine ⟨?_, ?_, ?_⟩
      · rw [hdata]
        exact (inUse_alloc ha).mpr (.inl rfl)
      · rw [hdata]
        exact hne
      · rw [hdata]
        exact hnm
    · refine (hset j hj hjb).of_data ?_ fun hu => (inUse_alloc ha).mpr (.inr hu)
      simp [FsState.giveFrame, FsState.setBlock, Function.update_of_ne hjb]

theorem freeBuff_safe (h : Session bs frs buff s₀ s) (hfree : FreeApart bs s) :
    (freeBuff buff s).Safe bs frs s₀ := by
  refine ⟨h.root, ⟨h.untouched.blocks, h.untouched.bytes⟩, fun f hf => ?_, hfree⟩
  have hne : f ≠ buff := fun e => h.buff_notMem (e ▸ hf)
  change (Function.update s.frames.frames buff _ f).refCnt ≠ 0
  rw [Function.update_of_ne hne]
  exact h.inUse f hf

theorem turn_safe {w : Wait} {y : Sys} (h : Session bs frs buff s₀ s)
    (hw : w.Safe bs frs buff s) (ht : Turn buff s c w y) : y.Safe bs frs s₀ := by
  cases ht with
  | panic => trivial
  | @head w w' hd hd' _ _ =>
    have hfree := (Wait.safe_iff hd).mp hw
    exact ⟨h.poke h.buff_notMem, (Wait.safe_iff (s := s.poke buff w.offset c) hd').mpr hfree⟩
  | trailer hd =>
    have hfree := (Wait.safe_iff hd).mp hw
    exact freeBuff_safe (h.poke h.buff_notMem) hfree
  | file hd hb hb0 hc =>
    obtain ⟨free, hchain, hout⟩ := (Wait.safe_iff hd).mp hw
    obtain ⟨free, rfl, -⟩ := free_cons hchain hb hb0
    exact chunk_safe ((h.poke h.buff_notMem).openFile (hout _ List.mem_cons_self))
      (opened_new hchain rfl FsState.openFile_next) hout
      (fun j hj hne => absurd (List.mem_singleton.mp hj) hne) hc
  | byte _ _ =>
    obtain ⟨free, e, ho, hout, hset⟩ := hw
    exact ⟨h.poke (hset _ ho.mem).notMem, free, e, ho.of_links rfl rfl, hout,
      fun j hj => (hset j hj).of_data rfl id⟩
  | @block b _ _ i nb _ _ _ hnb hnb0 hc =>
    obtain ⟨free, e, ho, hout, hset⟩ := hw
    obtain ⟨free, rfl, -⟩ := free_cons ho.freeList hnb hnb0
    have hbs := hout b (List.mem_append_left _ ho.mem)
    have hnbs := hout nb (List.mem_append_right _ List.mem_cons_self)
    have ho' : Opened (s.poke (s.fs b).data i c) b (nb :: free) e := ho.of_links rfl rfl
    refine chunk_safe ((h.poke (hset b ho.mem).notMem).nextBlock hbs hnbs)
      (ho'.grow rfl FsState.nextBlock_next) (fun j hj => hout j ?_) (fun j hj hne => ?_) hc
    · change j ∈ (e.blocks ++ [nb]) ++ free at hj
      rwa [List.append_assoc] at hj
    · -- the frames of the other blocks are those they had
      change j ∈ e.blocks ++ [nb] at hj
      rcases List.mem_append.mp hj with hj | hj
      · refine (hset j hj).of_data (FsState.nextBlock_field (p := FsBlock.data) ?_ ?_ j) id
        · exact fun _ _ => rfl
        · exact fun _ _ => rfl
      · exact absurd (List.mem_singleton.mp hj) hne
  | @last b _ _ i _ =>
    obtain ⟨free, e, ho, hout, hset⟩ := hw
    have ho' : Opened (s.poke (s.fs b).data i c) b free e := ho.of_links rfl rfl
    exact (h.poke (hset b ho.mem).notMem).closeFile ho' hout

/-- The free blocks of a file that is given up. -/
theorem Wait.Safe.freeApart {w : Wait} (h : w.Safe bs frs buff s) : FreeApart bs s := by
  cases w with
  | data b n cur i =>
    obtain ⟨free, e, ho, hout, -⟩ := h
    exact ⟨free, ho.freeList, fun j hj => hout j (List.mem_append_right _ hj)⟩
  | magic0 => exact h
  | magic1 => exact h
  | header cur => exact h
  | name i => exact h

/-- **One step**, an abort included. -/
theorem step_safe {x y : Sys} {inp : Input} (h : x.Safe bs frs s₀) (hs : Step x inp y) :
    y.Safe bs frs s₀ := by
  subst hs
  cases x with
  | idle s =>
    cases inp with
    | recvfs =>
      obtain ⟨hroot, hun, huse, hfree⟩ := h
      unfold Sys.step fsRecvCpio
      dsimp only
      split
      · trivial
      · rename_i buff frames ha
        obtain ⟨h0, hm⟩ := allocFrame_refCnt ha
        refine ⟨⟨hroot, ⟨hun.blocks, hun.bytes⟩, fun hf => huse buff hf h0, ?_, fun f hf => ?_⟩,
          hfree⟩
        · rw [hm, Function.update_self]
        · exact (inUse_alloc ha).mpr (.inr (huse f hf))
    | com1 c => exact h
    | com2 c => exact h
  | recv buff w s =>
    obtain ⟨hsess, hw⟩ := h
    cases inp with
    | recvfs => exact ⟨hsess, hw⟩
    | com2 c => exact turn_safe hsess hw (recvb_turn buff s c w)
    | com1 c =>
      unfold Sys.step
      dsimp only
      split
      · exact freeBuff_safe hsess hw.freeApart
      · exact ⟨hsess, hw⟩
  | panic msg => trivial

theorem path_safe {x y : Sys} {is : List Input} (hp : Path Step x is y) (h : x.Safe bs frs s₀) :
    y.Safe bs frs s₀ := by
  induction hp with
  | nil => exact h
  | cons hs _ ih => exact ih (step_safe h hs)

end

/-! ## 3. A file is complete -/

/-- The byte `c` completes a file: the next wait is for another entry, in `s'`. -/
def Completes (buff : Nat) (w : Wait) (s : FsState) (c : UInt8) (s' : FsState) : Prop :=
  w.inEntry = true ∧ recvb buff s c w = .recv buff .magic0 s'

/-- The file at `b`, with the blocks `bs` and the frames `frs`, is in `t` what it is in `s`. -/
structure FileKept (b : Nat) (bs frs : List Nat) (s t : FsState) : Prop where
  chain : Chain 0 t.next b bs
  blocks : ∀ j ∈ bs, (t.fs j).size = (s.fs j).size ∧ (t.fs j).data = (s.fs j).data
  name : (t.fs b).name = (s.fs b).name
  bytes : ∀ f ∈ frs, t.mem f = s.mem f

section
variable {buff b : Nat} {s₀ s s' : FsState} {free : List Nat} {e : Entry} {w : Wait} {c : UInt8}

/-- The state in which a file is complete: its last link has been cut. -/
def Cut (buff : Nat) (s₀ s : FsState) (b : Nat) (free : List Nat) (e : Entry) (s' : FsState) :
    Prop :=
  Session [] [] buff s₀ s ∧ Opened s b free e ∧ s' = s.setBlock b fun x => { x with next := 0 }

theorem Chunk.completes {n cur : Nat} {y : Sys} (hc : Chunk buff b n cur s y)
    (hy : y = .recv buff .magic0 s') : s' = s.closeFile b := by
  cases hc with
  | panic => cases hy
  | data _ _ => simp only [Sys.recv.injEq, reduceCtorEq, false_and, and_false] at hy
  | done _ =>
    simp only [Sys.recv.injEq, true_and] at hy
    exact hy.symm

/-- **What a complete file is**: the one that was received, and its frames if it has data. -/
theorem Completes.cut (hc : Completes buff w s c s') (h : (Sys.recv buff w s).Safe [] [] s₀) :
    ∃ s₁ b free e, Cut buff s₀ s₁ b free e s' ∧
      (w.inData = true → ∀ j ∈ e.blocks, Framed [] buff s₁ j) := by
  obtain ⟨hin, hs⟩ := hc
  obtain ⟨hsess, hw⟩ := h
  have hturn := recvb_turn buff s c w
  rw [hs] at hturn
  generalize hy : Sys.recv buff .magic0 s' = y at hturn
  cases hturn with
  | panic => cases hy
  | head _ _ hin' _ =>
    cases hy
    cases hin' hin
  | trailer _ => cases hy
  | file hd hb hb0 hc =>
    obtain ⟨free, hchain, -⟩ := (Wait.safe_iff hd).mp hw
    obtain ⟨free, rfl, -⟩ := free_cons hchain hb hb0
    refine ⟨_, _, free, (_, []), ⟨(hsess.poke List.not_mem_nil).openFile List.not_mem_nil,
      opened_new hchain rfl FsState.openFile_next, hc.completes hy.symm⟩, fun hdata => ?_⟩
    rw [hd] at hdata
    cases hdata
  | byte _ _ => simp only [Sys.recv.injEq, reduceCtorEq, false_and, and_false] at hy
  | block _ hcur _ _ hc =>
    cases hc with
    | panic => cases hy
    | data _ _ => simp only [Sys.recv.injEq, reduceCtorEq, false_and, and_false] at hy
    | done hdone => exact absurd hcur hdone
  | @last b n cur i _ =>
    simp only [Sys.recv.injEq, true_and] at hy
    obtain ⟨free, e, ho, -, hset⟩ := hw
    exact ⟨_, b, free, e, ⟨hsess.poke List.not_mem_nil, ho.of_links rfl rfl, hy⟩,
      fun _ j hj => (hset j hj).of_data rfl id⟩

/-- A complete file is out of reach for what comes later. -/
theorem Cut.safe {s₁ : FsState} (h : Cut buff s₀ s₁ b free e s') (frs : List Nat)
    (hfrs : ∀ f ∈ frs, ∃ j ∈ e.blocks, (s'.fs j).data = f ∧ Framed [] buff s₁ j) :
    Chain 0 s'.next (s'.next 0) e.blocks ∧ (Sys.recv buff .magic0 s').Safe e.blocks frs s' := by
  obtain ⟨hsess, ho, rfl⟩ := h
  obtain ⟨hfree, hchain⟩ := ho.close
  have hdata : ∀ j, ((s₁.setBlock b fun x => { x with next := 0 }).fs j).data = (s₁.fs j).data :=
    FsState.field_setBlock fun _ => rfl
  refine ⟨hchain, ⟨hchain.null_notMem, ⟨fun _ _ => rfl, fun _ _ => rfl⟩, fun hm => ?_,
    hsess.buff_refCnt, fun f hf => ?_⟩, free, hfree, fun j hj hm => ho.notMem hm hj⟩
  · obtain ⟨j, -, hj, hframed⟩ := hfrs buff hm
    rw [hdata] at hj
    exact hframed.ne hj
  · obtain ⟨j, -, rfl, hframed⟩ := hfrs f hf
    rw [hdata]
    exact hframed.inUse

end

theorem reach_safe {x : Sys} (h : Reach Init Step x) (s₀ : FsState) : x.Safe [] [] s₀ := by
  refine h.invariant (I := fun x => x.Safe [] [] s₀) ?_ fun x i y hx hs => step_safe hx hs
  intro x hx
  obtain ⟨fs, mem, rfl⟩ := hx
  exact ⟨List.not_mem_nil, ⟨nofun, nofun⟩, nofun, _, (layout_initFs fs mem).freeList,
    fun _ _ => List.not_mem_nil⟩

/-- **A stored file stays as it is**, from the byte that completes it, through all later
    sessions, whatever they receive and wherever they are aborted. -/
theorem stored_file_kept {buff : Nat} {w : Wait} {s s' : FsState} {c : UInt8}
    (h : Reach Init Step (.recv buff w s)) (hc : Completes buff w s c s') :
    ∃ bs, Chain 0 s'.next (s'.next 0) bs ∧
      ∀ is y t, Path Step (.recv buff .magic0 s') is y → y.state = some t →
        FileKept (s'.next 0) bs (if w.inData then bs.map fun j => (s'.fs j).data else []) s' t := by
  obtain ⟨s₁, b, free, e, hcut, hframed⟩ := hc.cut (reach_safe h s)
  obtain ⟨hchain, hsafe⟩ := hcut.safe
    (if w.inData then e.blocks.map fun j => (s'.fs j).data else []) fun f hf => by
      split at hf
      · rename_i hdata
        obtain ⟨j, hj, rfl⟩ := List.mem_map.mp hf
        exact ⟨j, hj, rfl, hframed hdata j hj⟩
      · cases hf
  refine ⟨e.blocks, hchain, fun is y t hp hy => ?_⟩
  have huntouched : Untouched e.blocks
      (if w.inData then e.blocks.map fun j => (s'.fs j).data else []) s' t := by
    have hy' := path_safe hp hsafe
    cases y with
    | idle s => exact Option.some.inj hy ▸ hy'.2.1
    | recv buff w s => exact Option.some.inj hy ▸ hy'.1.untouched
    | panic msg => cases hy
  obtain ⟨hblocks, hbytes⟩ := huntouched
  have hhead : s'.next 0 ∈ e.blocks := by
    obtain ⟨hhead, -, -⟩ := Chain.cons_iff.mp hchain
    rw [hhead]
    exact List.mem_cons_self
  refine ⟨?_, fun j hj => ?_, ?_, hbytes⟩
  · exact hchain.congr fun j hj => congrArg FsBlock.next (hblocks j hj).symm
  · rw [hblocks j hj]
    exact ⟨rfl, rfl⟩
  · rw [hblocks _ hhead]

/-- The file of one byte is complete with its byte, and is kept when the session is aborted. -/
theorem stored_file_kept_abort : ∃ s s' bs t, Completes 3 (.data 1 1 0 0) s 7 s' ∧
    Step (.recv 3 .magic0 s') (.com1 quitKey) (.idle t) ∧
    FileKept (s'.next 0) bs (bs.map fun j => (s'.fs j).data) s' t := by
  obtain ⟨s, hs, -⟩ := atData_eq
  have hreach := atData_reach.of_guarded
  rw [hs] at hreach
  obtain ⟨s', hs'⟩ : ∃ s', recvb 3 s 7 (.data 1 1 0 0) = .recv 3 .magic0 s' := ⟨_, rfl⟩
  have hc : Completes 3 (.data 1 1 0 0) s 7 s' := ⟨rfl, hs'⟩
  obtain ⟨bs, -, hkept⟩ := stored_file_kept hreach hc
  have hstep : Step (.recv 3 .magic0 s') (.com1 quitKey) (freeBuff 3 s') := rfl
  exact ⟨s, s', bs, _, hc, hstep, hkept _ _ _ (.cons hstep (.nil _)) rfl⟩

end LsePc.Bios
