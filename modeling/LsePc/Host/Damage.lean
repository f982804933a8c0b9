/-
  File:      LsePc/Host/Damage.lean
  Subject:   Commands over a link that loses bytes.

  The host sends SYN bytes and a command, again and again, and of each such block at most one
  byte is lost. What comes runs no command that has not been sent.

  * `Block`: the bytes of a call and the one that is lost; `Block.bytes`: what comes of it;
  * `block_after`, `undamaged_after`: what a block runs, whatever the block before it was;
  * **result** (`lossy_calls`): the commands run are commands sent, in order, and every
    undamaged frame is run, but for one whose only SYN is lost right after a damaged block.
-/
import LsePc.Host.Remote
import LsePc.Supervisor.Parser

namespace LsePc.Host

open LsePc.Lib LsePc.Bridge LsePc.Supervisor

/-! ## 1. Blocks -/

/-- What the host sends for a call, one SYN for each try, and the byte of it that is lost. -/
structure Block where
  syns : Nat
  call : Call
  lost : Option Nat
  hsyns : 0 < syns
  hlost : ∀ i ∈ lost, i < syns + (frame call.cmd).length

namespace Block

def sent (b : Block) : List Byte := List.replicate b.syns protoSyn ++ frame b.call.cmd

/-- The bytes that come. -/
def bytes (b : Block) : List Byte :=
  match b.lost with
  | none => b.sent
  | some i => b.sent.eraseIdx i

/-- No byte of the frame is lost. -/
def Undamaged (b : Block) : Prop := ∀ i ∈ b.lost, i < b.syns

/-- The SYN bytes that come before an undamaged frame. -/
theorem bytes_undamaged {b : Block} (h : b.Undamaged) :
    ∃ n, b.bytes = List.replicate n protoSyn ++ frame b.call.cmd ∧
      (b.lost = none ∨ 1 < b.syns → 0 < n) := by
  rw [bytes]
  cases hlost : b.lost with
  | none => exact ⟨b.syns, rfl, fun _ => b.hsyns⟩
  | some i =>
    have hi : i < b.syns := h i hlost
    refine ⟨b.syns - 1, ?_, fun hsyn => ?_⟩
    · dsimp only
      rw [sent, List.eraseIdx_append_of_lt_length (by rwa [List.length_replicate]),
        List.eraseIdx_replicate, if_pos hi]
    · rcases hsyn with hsyn | hsyn
      · cases hsyn
      · omega

theorem bytes_damaged {b : Block} (h : ¬ b.Undamaged) :
    ∃ i, i < (frame b.call.cmd).length ∧
      b.bytes = List.replicate b.syns protoSyn ++ (frame b.call.cmd).eraseIdx i := by
  rw [bytes]
  cases hlost : b.lost with
  | none =>
    refine absurd (fun i hi => ?_) h
    rw [hlost] at hi
    cases hi
  | some i =>
    have hle : b.syns ≤ i := by
      by_contra hlt
      refine h fun j hj => ?_
      rw [hlost] at hj
      cases hj
      omega
    refine ⟨i - b.syns, ?_, ?_⟩
    · have := b.hlost i hlost
      omega
    · dsimp only
      rw [sent, List.eraseIdx_append_of_length_le (by rwa [List.length_replicate]),
        List.length_replicate]

end Block

/-- No call sends the echo command. -/
theorem cmd_ne_echo (c : Call) (arg : Byte) : c.cmd ≠ .echo arg := by
  cases c <;> exact nofun

/-! ## 2. What a block runs -/

theorem after_syns (n : Nat) (bs : List Byte) :
    Parser.top.after (List.replicate n protoSyn ++ bs) = Parser.top.after bs := by
  induction n with
  | zero => rfl
  | succ n ih => exact ih

/-- A SYN leads to the top. -/
theorem settled_syns {p : Parser} (h : p.settled) {n : Nat} (hn : 0 < n) (bs : List Byte) :
    p.after (List.replicate n protoSyn ++ bs) = Parser.top.after bs := by
  by_cases htop : p = .top
  · rw [htop]
    exact after_syns n bs
  · obtain ⟨n, rfl⟩ := Nat.exists_eq_succ_of_ne_zero (Nat.ne_of_gt hn)
    have hnak : p.step protoSyn = .nak := (Parser.settled_step h htop).1
    rw [List.replicate_succ, List.cons_append, Parser.after_cons, hnak]
    exact after_syns n bs

/-- **An undamaged block is run** after a SYN, and at the top. -/
theorem undamaged_after {b : Block} (hb : b.Undamaged) {p : Parser} (hp : p.settled)
    (hsyn : (b.lost = none ∨ 1 < b.syns) ∨ p = .top) :
    p.after b.bytes = ([b.call.cmd], .top) := by
  obtain ⟨n, hbytes, hn⟩ := Block.bytes_undamaged hb
  rw [hbytes]
  rcases hsyn with hsyn | rfl
  · rw [settled_syns hp (hn hsyn), after_frame]
  · rw [after_syns, after_frame]

/-- **A block runs its command or changes nothing.** -/
theorem block_after (b : Block) {p : Parser} (hp : p.settled) :
    p.after b.bytes = ([b.call.cmd], .top) ∨ p.Quiet b.bytes := by
  have hquiet : ∀ i, i < (frame b.call.cmd).length →
      Parser.Quiet .top ((frame b.call.cmd).eraseIdx i) :=
    fun i hi => Parser.quiet_damaged (cmd_ne_echo b.call) hi
  by_cases hb : b.Undamaged
  · obtain ⟨n, hbytes, -⟩ := Block.bytes_undamaged hb
    by_cases htop : p = .top
    · exact .inl (undamaged_after hb hp (.inr htop))
    rcases Nat.eq_zero_or_pos n with rfl | hn
    · -- the ENQ is taken for the byte that is waited for
      right
      have hnak : p.step protoEnq = .nak := (Parser.settled_step hp htop).2
      have hbytes' : b.bytes = protoEnq :: (frame b.call.cmd).eraseIdx 0 := hbytes
      rw [Parser.Quiet, hbytes', Parser.after_cons, hnak]
      exact hquiet 0 (by simp [frame])
    · left
      rw [hbytes, settled_syns hp hn, after_frame]
  · obtain ⟨i, hi, hbytes⟩ := Block.bytes_damaged hb
    right
    rw [Parser.Quiet, hbytes, settled_syns hp b.hsyns]
    exact hquiet i hi

/-! ## 3. Any number of blocks -/

theorem blocks_settled (blocks : List Block) {p : Parser} (hp : p.settled) :
    (p.after (blocks.flatMap Block.bytes)).2.settled := by
  induction blocks generalizing p with
  | nil => exact hp
  | cons b blocks ih =>
    rw [List.flatMap_cons, Parser.after_append]
    refine ih ?_
    rcases block_after b hp with h | h
    · rw [h]
      rfl
    · exact h.2

theorem blocks_sublist (blocks : List Block) {p : Parser} (hp : p.settled) :
    ((p.after (blocks.flatMap Block.bytes)).1.filter Cmd.changes).Sublist
      (blocks.map fun b => b.call.cmd) := by
  induction blocks generalizing p with
  | nil => exact List.nil_sublist _
  | cons b blocks ih =>
    rw [List.flatMap_cons, Parser.after_append, List.filter_append, List.map_cons]
    rcases block_after b hp with h | h
    · rw [h]
      exact List.Sublist.append List.filter_sublist (ih rfl)
    · rw [h.1]
      exact (ih h.2).cons _

/-- After an intact block, and before the first one, `proto_handle` is at the top. -/
theorem after_intact {before : List Block} (h : ∀ a ∈ before.getLast?, a.lost = none) :
    (Parser.top.after (before.flatMap Block.bytes)).2 = .top := by
  rcases List.eq_nil_or_concat before with rfl | ⟨before, a, rfl⟩
  · rfl
  · have hlost : a.lost = none := h a (by simp)
    have hund : a.Undamaged := by
      intro i hi
      rw [hlost] at hi
      cases hi
    rw [List.concat_eq_append, List.flatMap_append, Parser.after_append, List.flatMap_singleton,
      undamaged_after hund (blocks_settled before rfl) (.inl (.inl hlost))]

/-- **The commands run are commands sent**: those that change anything are a subsequence of
    them, and an undamaged frame is run as soon as it has come, unless the lost byte is its
    only SYN and the block before has lost a byte too. -/
theorem lossy_calls {blocks : List Block} {cs : List Cmd}
    (h : Server.Runs protoHandle protoHandle (blocks.flatMap Block.bytes) cs) :
    (cs.filter Cmd.changes).Sublist (blocks.map fun b => b.call.cmd) ∧
      ∀ before b later, blocks = before ++ b :: later → b.Undamaged →
        ((b.lost = none ∨ 1 < b.syns) ∨ ∀ a ∈ before.getLast?, a.lost = none) →
        ∃ cs₁ cs₂, cs = cs₁ ++ b.call.cmd :: cs₂ ∧
          Server.Runs protoHandle protoHandle (before.flatMap Block.bytes) cs₁ := by
  have hcs := (runs_iff .top _ _).mp h
  subst hcs
  refine ⟨blocks_sublist blocks rfl, fun before b later hblocks hb hsyn => ?_⟩
  have hb' : (Parser.top.after (before.flatMap Block.bytes)).2.after b.bytes =
      ([b.call.cmd], .top) :=
    undamaged_after hb (blocks_settled before rfl) (hsyn.imp_right after_intact)
  refine ⟨_, (Parser.top.after (later.flatMap Block.bytes)).1, ?_, (runs_iff .top _ _).mpr rfl⟩
  rw [hblocks, List.flatMap_append, List.flatMap_cons, Parser.after_append, Parser.after_append,
    hb']
  rfl

/-- A start command that has lost its EOT, one that has lost its SYN, and one that has come. -/
def eotLost : Block := ⟨1, .start, some 5, by decide, by decide⟩
def synLost : Block := ⟨1, .start, some 0, by decide, by decide⟩
def intact : Block := ⟨1, .start, none, by decide, by decide⟩

/-- After a frame without EOT the next one is run if its SYN has come. -/
theorem lossy_calls_eotLost : ∃ cs₁ cs₂, [Cmd.start] = cs₁ ++ .start :: cs₂ ∧
    Server.Runs protoHandle protoHandle ([eotLost].flatMap Block.bytes) cs₁ :=
  (lossy_calls ((runs_iff .top _ _).mpr rfl)).2 [eotLost] intact []
    rfl nofun (.inl (.inl rfl))

/-- If it has not, the frame is undamaged and nothing is run. -/
theorem synLost_not_run : synLost.Undamaged ∧ ∀ cs,
    Server.Runs protoHandle protoHandle ([eotLost, synLost].flatMap Block.bytes) cs ↔ cs = [] := by
  refine ⟨fun i hi => ?_, runs_iff .top _⟩
  cases hi
  decide

end LsePc.Host
