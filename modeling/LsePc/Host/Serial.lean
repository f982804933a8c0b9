/-
  File:      LsePc/Host/Serial.lean
  Subject:   The input stream of an emulated serial port.

  A read of any register fills the queue if it is empty; only a read of RBR takes a byte.

  * `SerialData.pending`, `SerialData.Sound`: what is queued, and where it lies in the array;
  * `fill_sound`, `serialRead_sound`: one access;
  * `Stream`: what has come from `read(2)` and what has been returned, over any accesses;
  * **result** (`stream_intact`): nothing is lost, repeated or overwritten, and what LSR tells
    of the queue. LSR says nothing of what the next `read(2)` delivers (`lsr_empty`).
-/
import LsePc.Host.Dev

namespace LsePc.Host

open LsePc.Bridge LsePc.Supervisor

/-! ## 1. One access -/

/-- The offsets of the registers. -/
def rbr : Word := 0
def lsr : Word := 5

/-- The bytes in the queue. -/
def SerialData.pending (data : SerialData) : List Byte :=
  (data.queue.drop data.cursor).take data.queueSize

/-- The queue is an array of `queueSize` bytes, and what is queued lies in it. -/
structure SerialData.Sound (data : SerialData) : Prop where
  length : data.queue.length = Host.queueSize
  bound : data.cursor + data.queueSize ≤ Host.queueSize

/-- What an access gets from `read(2)`. -/
def SerialData.chunk (data : SerialData) (fd : List Byte) : List Byte :=
  if data.queueSize = 0 then fd.take Host.queueSize else []

section
variable {data : SerialData} {fd : List Byte}

theorem pending_eq_nil (h : data.Sound) : data.pending = [] ↔ data.queueSize = 0 := by
  have hlen := h.length
  have hb := h.bound
  rw [SerialData.pending, ← List.length_eq_zero_iff, List.length_take, List.length_drop]
  omega

/-- **The queue is filled behind what has been taken**, and only when all of it has. -/
theorem fill_sound (h : data.Sound) (fd : List Byte) :
    (data.fill fd).Sound ∧ (data.fill fd).pending = data.pending ++ data.chunk fd := by
  have hlen := h.length
  have hgot : (fd.take Host.queueSize).length ≤ Host.queueSize := List.length_take_le _ _
  unfold SerialData.fill SerialData.chunk
  by_cases h0 : data.queueSize = 0
  · have hpend := (pending_eq_nil h).mpr h0
    rw [if_pos h0, hpend, List.nil_append]
    dsimp only
    split
    · refine ⟨⟨?_, ?_⟩, ?_⟩
      · rw [List.length_append, List.length_drop]
        omega
      · rw [Nat.zero_add]
        exact hgot
      · exact List.take_left
    · rename_i hnil
      have hnil : fd.take Host.queueSize = [] := by
        by_contra hne
        exact hnil ⟨h0, hne⟩
      exact ⟨h, hpend.trans hnil.symm⟩
  · rw [if_neg h0, List.append_nil]
    dsimp only
    rw [if_neg fun hc => h0 hc.1]
    exact ⟨h, rfl⟩

/-- The byte at the cursor, which is in the array. -/
theorem pending_cons (h : data.Sound) (h0 : data.queueSize ≠ 0) :
    data.cursor < Host.queueSize ∧ data.pending = data.queue.getD data.cursor 0 ::
      { data with cursor := data.cursor + 1, queueSize := data.queueSize - 1 }.pending := by
  have hlen := h.length
  have hb := h.bound
  have hlt : data.cursor < data.queue.length := by omega
  refine ⟨by omega, ?_⟩
  obtain ⟨n, hn⟩ := Nat.exists_eq_succ_of_ne_zero h0
  unfold SerialData.pending
  dsimp only
  rw [hn, List.drop_eq_getElem_cons hlt, List.take_succ_cons, List.getElem_eq_getD 0]
  rfl

/-- What a handler returns for a byte. -/
def word (c : Byte) : Word := c.setWidth 16

/-- What an access has returned of the stream: a read of RBR, if there is a byte. -/
def SerialData.returned (data : SerialData) (fd : List Byte) (offset : Word) : List Word :=
  if offset = rbr ∧ (data.fill fd).queueSize ≠ 0 then [(serialRead data fd offset).1] else []

/-- A read of another register leaves the queue as it has been filled. -/
theorem serialRead_other {offset : Word} (ho : offset ≠ rbr) :
    (serialRead data fd offset).2 = data.fill fd := by
  have hne : offset.toNat ≠ 0 := fun h => ho (BitVec.eq_of_toNat_eq h)
  unfold serialRead
  dsimp only
  split
  · rename_i h0
    exact absurd h0 hne
  · rfl
  · rfl

theorem serialRead_empty (h0 : (data.fill fd).queueSize = 0) :
    serialRead data fd rbr = (0, data.fill fd) := if_neg (not_not.mpr h0)

/-- A read of RBR takes the first byte. -/
theorem serialRead_byte (h : data.Sound) (h0 : (data.fill fd).queueSize ≠ 0) :
    ∃ c rest, (data.fill fd).pending = c :: rest ∧ (serialRead data fd rbr).1 = word c ∧
      (serialRead data fd rbr).2.pending = rest ∧ (serialRead data fd rbr).2.Sound := by
  have hsound := (fill_sound h fd).1
  have hread : serialRead data fd rbr = (word ((data.fill fd).queue.getD (data.fill fd).cursor 0),
      { data.fill fd with
        cursor := (data.fill fd).cursor + 1, queueSize := (data.fill fd).queueSize - 1 }) :=
    if_pos h0
  refine ⟨_, _, (pending_cons hsound h0).2, ?_, ?_, ?_⟩
  · rw [hread]
  · rw [hread]
  · rw [hread]
    refine ⟨hsound.length, ?_⟩
    have hb := hsound.bound
    dsimp only
    omega

/-- **One access**: what it returns and what is queued after it is what was queued and what
    has come. -/
theorem serialRead_sound (h : data.Sound) (fd : List Byte) (offset : Word) :
    (serialRead data fd offset).2.Sound ∧
      data.returned fd offset ++ (serialRead data fd offset).2.pending.map word =
        (data.pending ++ data.chunk fd).map word := by
  obtain ⟨hsound, hpend⟩ := fill_sound h fd
  rw [← hpend]
  unfold SerialData.returned
  by_cases ho : offset = rbr
  · subst ho
    by_cases h0 : (data.fill fd).queueSize = 0
    · rw [if_neg (fun hc => hc.2 h0), serialRead_empty h0]
      exact ⟨hsound, rfl⟩
    · obtain ⟨c, rest, hcons, hword, hrest, hsound'⟩ := serialRead_byte h h0
      rw [if_pos ⟨rfl, h0⟩, hword, hrest, hcons]
      exact ⟨hsound', rfl⟩
  · rw [if_neg (fun hc => ho hc.1), serialRead_other ho]
    exact ⟨hsound, rfl⟩

end

/-! ## 2. The stream -/

/-- The port, what `read(2)` has delivered, and what has been returned of it. -/
structure Stream where
  data : SerialData
  got : List Byte
  out : List Word

/-- A read of the register at `offset`; `fd` is what `read(2)` delivers if it is called. -/
def Stream.read (x : Stream) (r : Word × List Byte) : Stream where
  data := (serialRead x.data r.2 r.1).2
  got := x.got ++ x.data.chunk r.2
  out := x.out ++ x.data.returned r.2 r.1

/-- Nothing is lost, repeated or overwritten. -/
structure Stream.Intact (x : Stream) : Prop where
  sound : x.data.Sound
  bytes : x.out ++ x.data.pending.map word = x.got.map word

theorem read_intact {x : Stream} (h : x.Intact) (r : Word × List Byte) : (x.read r).Intact := by
  obtain ⟨hsound, hbytes⟩ := serialRead_sound h.sound r.2 r.1
  refine ⟨hsound, ?_⟩
  change (x.out ++ _) ++ (serialRead x.data r.2 r.1).2.pending.map word = (x.got ++ _).map word
  rw [List.append_assoc, hbytes, List.map_append, ← List.append_assoc, h.bytes, List.map_append]

/-- **Any accesses.** -/
theorem foldl_intact {x : Stream} (h : x.Intact) (rs : List (Word × List Byte)) :
    (rs.foldl Stream.read x).Intact := by
  induction rs generalizing x with
  | nil => exact h
  | cons r rs ih => exact ih (read_intact h r)

/-- What a read of LSR tells: whether there is a byte in the queue. Then a read of RBR returns
    it, and does not call `read(2)`; otherwise it returns what its own `read(2)` delivers. -/
structure LsrTells (y : Stream) (r : Word) : Prop where
  available : r &&& dataAvl ≠ 0 ↔ y.data.pending ≠ []
  next : ∀ c rest, y.data.pending = c :: rest → ∀ fd,
    (y.read (rbr, fd)).out = y.out ++ [word c] ∧ (y.read (rbr, fd)).got = y.got
  empty : y.data.pending = [] → ∀ fd,
    (y.read (rbr, fd)).out = y.out ++ ((fd.take Host.queueSize).take 1).map word

theorem returned_byte {data : SerialData} {fd : List Byte} (h : data.Sound) :
    data.returned fd rbr = ((data.pending ++ data.chunk fd).take 1).map word := by
  obtain ⟨hsound, hpend⟩ := fill_sound h fd
  rw [← hpend]
  unfold SerialData.returned
  by_cases h0 : (data.fill fd).queueSize = 0
  · rw [if_neg (fun hc => hc.2 h0), (pending_eq_nil hsound).mpr h0]
    rfl
  · obtain ⟨c, rest, hcons, hword, -⟩ := serialRead_byte h h0
    rw [if_pos ⟨rfl, h0⟩, hword, hcons]
    rfl

theorem lsr_tells {x : Stream} (h : x.Intact) (fd : List Byte) :
    LsrTells (x.read (lsr, fd)) (serialRead x.data fd lsr).1 := by
  have hy := (read_intact h (lsr, fd)).sound
  have hdata : (x.read (lsr, fd)).data = x.data.fill fd :=
    serialRead_other (show lsr ≠ rbr by decide)
  refine ⟨?_, fun c rest hcons fd' => ⟨?_, ?_⟩, fun hnil fd' => ?_⟩
  · have hlsr : (serialRead x.data fd lsr).1 =
        if (x.data.fill fd).queueSize > 0 then thrReady ||| dataAvl else thrReady := rfl
    rw [hlsr, ne_eq, ne_eq, pending_eq_nil hy, hdata]
    split
    · rename_i hpos
      exact iff_of_true (by decide) (Nat.ne_of_gt hpos)
    · rename_i hzero
      exact iff_of_false (by decide) fun hne => hne (Nat.le_zero.mp (Nat.le_of_not_gt hzero))
  · refine congrArg (_ ++ ·) ((returned_byte hy).trans ?_)
    rw [hcons]
    rfl
  · have hne : (x.read (lsr, fd)).data.queueSize ≠ 0 := by
      rw [ne_eq, ← pending_eq_nil hy, hcons]
      exact List.cons_ne_nil c rest
    refine (congrArg (_ ++ ·) ?_).trans (List.append_nil _)
    exact if_neg hne
  · refine congrArg (_ ++ ·) ((returned_byte hy).trans ?_)
    unfold SerialData.chunk
    rw [hnil, if_pos ((pending_eq_nil hy).mp hnil), List.nil_append]

/-- A serial port with an empty queue, before the first access. -/
def SerialData.fresh (queue : List Byte) : SerialData :=
  { queueSize := 0, cursor := 0, queue := queue, output := [] }

/-- **The input stream is intact**, in every state: the bytes that were returned and those in
    the queue are what `read(2)` has delivered, in order; the array is only read inside its
    bounds; and LSR tells what is in the queue. -/
theorem stream_intact {queue : List Byte} (h : queue.length = Host.queueSize)
    (rs : List (Word × List Byte)) (fd : List Byte) :
    let x := rs.foldl Stream.read { data := .fresh queue, got := [], out := [] }
    x.data.cursor + x.data.queueSize ≤ Host.queueSize ∧
    ((x.data.fill fd).queueSize ≠ 0 → (x.data.fill fd).cursor < Host.queueSize) ∧
    x.out ++ x.data.pending.map word = x.got.map word ∧
    LsrTells (x.read (lsr, fd)) (serialRead x.data fd lsr).1 := by
  intro x
  have hx : x.Intact := foldl_intact ⟨⟨h, Nat.zero_le _⟩, rfl⟩ rs
  exact ⟨hx.sound.bound, fun h0 => (pending_cons (fill_sound hx.sound _).1 h0).1, hx.bytes,
    lsr_tells hx fd⟩

/-- Three bytes come, two of them are read. -/
theorem stream_intact_three :
    let x := [(rbr, [1, 2, 3]), (rbr, [])].foldl Stream.read
      { data := .fresh (List.replicate 512 0), got := [], out := [] }
    x.out = [1, 2] ∧ x.data.pending = [3] ∧ x.out ++ x.data.pending.map word = x.got.map word := by
  refine ⟨by decide +kernel, by decide +kernel, ?_⟩
  exact (stream_intact List.length_replicate [(rbr, [1, 2, 3]), (rbr, [])] []).2.2.1

/-- LSR tells of no data, and a read of RBR right after it returns the next byte. -/
theorem lsr_empty :
    let x : Stream := { data := .fresh (List.replicate 512 0), got := [], out := [] }
    let y := x.read (lsr, [])
    let z := y.read (rbr, [7])
    (serialRead x.data [] lsr).1 &&& dataAvl = 0 ∧ (serialRead y.data [7] rbr).1 = word 7 ∧
      z.got = y.got ++ [7] ∧ z.out = y.out ++ [word 7] := by
  decide +kernel

end LsePc.Host
