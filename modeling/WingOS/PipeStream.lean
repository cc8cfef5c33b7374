/-
# Streams on a pipe

`fwrite` to a `FILE_KIND_OUT` stream and `fread` from a `FILE_KIND_IN` stream
(`libc/stdio_fs.cpp`), on the shared ring of a pipe. Both cut the transfer in
pieces of 100 bytes, and take the length of a piece from the total instead of
what is left: from 100 bytes on every piece has 100, so the last one goes past
the end of the buffer if the total is no multiple of 100.

The calls are exact just for the other totals (`offsets_exact_iff`). A writer and
a reader that make only such calls, in pieces of any sizes, have the stream
unchanged: the cells of the reader's buffers get, in order, what was in the
writer's (`pipe_exact`).

Key definitions: `pieces`, `fwriteOut`, `freadIn`, `PipeRun`, `PipeRun.step`,
`PipeRun.Delivered`.
Key theorems: `offsets_exact_iff`, `inv_pipeStep`, `pipe_exact`.
-/
import WingOS.PCRing
import WingOS.Lib.Bits

namespace WingOS

open Lib (Memory)
open Function (update update_self update_of_ne)

/-! ### The loops -/

/-- The loop of both calls: the offsets in the buffer, in the order in which they
are sent or received. `none` when it goes on for more than `fuel` rounds. -/
def pieces (total : ℕ) : (fuel i offset : ℕ) → Option (List ℕ)
  | 0, _, _ => none
  | fuel + 1, i, offset =>
    if i < total then
      let count := if 100 ≤ total then 100 else total - i
      (pieces total fuel ((i + 100) % 2 ^ 64) (offset + count)).map (List.range' offset count ++ ·)
    else some []

def offsets (total : ℕ) : Option (List ℕ) := pieces total (total / 100 + 2) 0 0

/-- `fwrite` to a `FILE_KIND_OUT` stream: the bytes it sends, with their
addresses, and what it returns. -/
def fwriteOut (mem : Memory) (ptr size n : ℕ) : Option (List (ℕ × BitVec 8) × ℕ) :=
  (offsets (size * n % 2 ^ 64)).map fun offs => (offs.map fun o => (ptr + o, mem (ptr + o)), n)

/-- `fread` from a `FILE_KIND_IN` stream: the addresses of the bytes it receives,
and what it returns. -/
def freadIn (ptr size n : ℕ) : Option (List ℕ × ℕ) :=
  (offsets (size * n % 2 ^ 64)).map fun offs => (offs.map (ptr + ·), n)

/-- The addresses of a buffer. -/
def bufferCells (ptr total : ℕ) : List ℕ := (List.range total).map (ptr + ·)

/-- The bytes of the buffer are sent in order, and no others are read. -/
def FwriteExact (mem : Memory) (ptr size n : ℕ) : Prop :=
  ∃ sent, fwriteOut mem ptr size n = some (sent, n) ∧
    sent.map Prod.snd = (bufferCells ptr (size * n)).map mem ∧
    ∀ a ∈ sent.map Prod.fst, ptr ≤ a ∧ a < ptr + size * n

/-- As many bytes as the buffer has are received, and no others are written. -/
def FreadExact (ptr size n : ℕ) : Prop :=
  ∃ cells, freadIn ptr size n = some (cells, n) ∧ cells.length = size * n ∧
    ∀ a ∈ cells, ptr ≤ a ∧ a < ptr + size * n

/-- The totals that are cut right. -/
def CutRight (total : ℕ) : Prop := total < 100 ∨ total % 100 = 0

instance (total : ℕ) : Decidable (CutRight total) := inferInstanceAs (Decidable (_ ∨ _))

section Pieces

variable {total : ℕ}

/-- Whole pieces. -/
theorem pieces_whole (hlt : total < 2 ^ 64) (hbig : 100 ≤ total) (fuel : ℕ) : ∀ k i offset : ℕ,
    i + 100 * k = total → pieces total (k + 1 + fuel) i offset = some (List.range' offset (100 * k))
  | 0, i, offset, hi => by
    rw [show 0 + 1 + fuel = fuel + 1 by omega, pieces, if_neg (by omega)]
    rfl
  | k + 1, i, offset, hi => by
    have hrec := pieces_whole hlt hbig fuel k (i + 100) (offset + 100) (by omega)
    rw [show k + 1 + 1 + fuel = (k + 1 + fuel) + 1 by omega, pieces, if_pos (by omega)]
    dsimp only
    rw [if_pos hbig, Nat.mod_eq_of_lt (by omega), hrec, Option.map_some, List.range'_append_1]
    congr 2
    omega

theorem offsets_of_cutRight (hlt : total < 2 ^ 64) (h : CutRight total) :
    offsets total = some (List.range total) := by
  unfold offsets
  rw [List.range_eq_range']
  by_cases hbig : 100 ≤ total
  · have hmod : total % 100 = 0 := h.resolve_left (Nat.not_lt.mpr hbig)
    have hwhole := pieces_whole hlt hbig 1 (total / 100) 0 0 (by omega)
    rw [hwhole, Nat.mul_div_cancel' (Nat.dvd_of_mod_eq_zero hmod)]
  · rw [show total / 100 + 2 = 2 by omega, pieces]
    split
    · rename_i hpos
      have hend : pieces total 1 ((0 + 100) % 2 ^ 64) (0 + (total - 0)) = some [] := if_neg (by omega)
      dsimp only
      rw [hend, Option.map_some, List.append_nil]
      rfl
    · rename_i hpos
      obtain rfl : total = 0 := by omega
      rfl

/-- From 100 bytes on, all pieces have 100. -/
theorem pieces_length (hbig : 100 ≤ total) : ∀ {fuel i offset : ℕ} {offs : List ℕ},
    pieces total fuel i offset = some offs → offs.length % 100 = 0
  | 0, _, _, _, h => by cases h
  | fuel + 1, i, offset, offs, h => by
    rw [pieces] at h
    split at h
    · obtain ⟨rest, hrest, rfl⟩ := Option.map_eq_some_iff.mp h
      have := pieces_length hbig hrest
      rw [List.length_append, List.length_range']
      omega
    · rw [← Option.some.inj h]
      rfl

/-- **The cut is right** for the totals below 100 and the multiples of 100. -/
theorem offsets_exact_iff (hlt : total < 2 ^ 64) :
    (∃ offs, offsets total = some offs ∧ offs.length = total) ↔ CutRight total := by
  constructor
  · rintro ⟨offs, hoffs, hlen⟩
    by_cases hbig : 100 ≤ total
    · exact .inr (hlen ▸ pieces_length hbig hoffs)
    · exact .inl (Nat.lt_of_not_le hbig)
  · intro h
    exact ⟨_, offsets_of_cutRight hlt h, List.length_range⟩

variable {mem : Memory} {ptr size n : ℕ}

theorem mem_bufferCells {a : ℕ} (h : a ∈ bufferCells ptr total) : ptr ≤ a ∧ a < ptr + total := by
  obtain ⟨o, ho, rfl⟩ := List.mem_map.mp h
  have := List.mem_range.mp ho
  omega

/-- A call with such a total reads its buffer. -/
theorem fwriteOut_of_cutRight (hlt : size * n < 2 ^ 64) (h : CutRight (size * n)) :
    fwriteOut mem ptr size n = some ((bufferCells ptr (size * n)).map fun a => (a, mem a), n) := by
  unfold fwriteOut bufferCells
  rw [Nat.mod_eq_of_lt hlt, offsets_of_cutRight hlt h, Option.map_some, List.map_map]
  rfl

theorem freadIn_of_cutRight (hlt : size * n < 2 ^ 64) (h : CutRight (size * n)) :
    freadIn ptr size n = some (bufferCells ptr (size * n), n) := by
  unfold freadIn
  rw [Nat.mod_eq_of_lt hlt, offsets_of_cutRight hlt h]
  rfl

theorem fwriteExact_iff (hlt : size * n < 2 ^ 64) : FwriteExact mem ptr size n ↔ CutRight (size * n) := by
  constructor
  · rintro ⟨sent, hsent, hbytes, -⟩
    unfold fwriteOut at hsent
    rw [Nat.mod_eq_of_lt hlt] at hsent
    obtain ⟨offs, hoffs, heq⟩ := Option.map_eq_some_iff.mp hsent
    refine (offsets_exact_iff hlt).mp ⟨offs, hoffs, ?_⟩
    have := congrArg List.length hbytes
    rw [← (Prod.mk.inj heq).1] at this
    simpa [bufferCells] using this
  · intro h
    refine ⟨_, fwriteOut_of_cutRight hlt h, ?_, fun a ha => ?_⟩
    · rw [List.map_map]
      rfl
    · rw [List.map_map] at ha
      obtain ⟨b, hb, rfl⟩ := List.mem_map.mp ha
      exact mem_bufferCells hb

theorem freadExact_iff (hlt : size * n < 2 ^ 64) : FreadExact ptr size n ↔ CutRight (size * n) := by
  constructor
  · rintro ⟨cells, hcells, hlen, -⟩
    unfold freadIn at hcells
    rw [Nat.mod_eq_of_lt hlt] at hcells
    obtain ⟨offs, hoffs, heq⟩ := Option.map_eq_some_iff.mp hcells
    refine (offsets_exact_iff hlt).mp ⟨offs, hoffs, ?_⟩
    rw [← hlen, ← (Prod.mk.inj heq).1, List.length_map]
  · intro h
    refine ⟨_, freadIn_of_cutRight hlt h, ?_, fun a ha => mem_bufferCells ha⟩
    rw [bufferCells, List.length_map, List.length_range]

end Pieces

/-! ### A writer and a reader -/

inductive Side
  | writer | reader
  deriving DecidableEq

/-- The ring of a pipe, what the calls under way still have to send, and the cells
they still have to fill. The last three are what the calls were asked for and
what was put into the reader's buffers, in order. -/
structure PipeRun where
  ring : PCRun Side (BitVec 8)
  toSend : List (BitVec 8) := []
  toFill : List ℕ := []
  written : List (BitVec 8) := []
  asked : List ℕ := []
  filled : List (ℕ × Option (BitVec 8)) := []

/-- A call, the start of `produce` or `consume` for the next byte, and a section
of the one that is under way. -/
inductive PipeAction
  | fwrite (mem : Memory) (ptr size n : ℕ)
  | fread (ptr size n : ℕ)
  | send
  | receive
  | turn (side : Side)

namespace PipeRun

def start (capacity : ℕ) : PipeRun := { ring := { ring := { capacity } } }

/-- The byte that a section has taken goes to the next cell. -/
def store (s : PipeRun) (ring : PCRun Side (BitVec 8)) : PipeRun :=
  if ring.consumed.length = s.ring.consumed.length then { s with ring }
  else
    match s.toFill, ring.consumed.getLast? with
    | a :: rest, some v => { s with ring, toFill := rest, filled := s.filled ++ [(a, v)] }
    | _, _ => { s with ring }

/-- A step; `none` when it cannot be taken. A call begins when the one before has
returned. -/
def step (s : PipeRun) : PipeAction → Option PipeRun
  | .fwrite mem ptr size n =>
    if s.ring.pending .writer = none ∧ s.toSend = [] then
      (fwriteOut mem ptr size n).map fun (sent, _) =>
        { s with
          toSend := sent.map Prod.snd
          written := s.written ++ (bufferCells ptr (size * n)).map mem }
    else none
  | .fread ptr size n =>
    if s.ring.pending .reader = none ∧ s.toFill = [] then
      (freadIn ptr size n).map fun (cells, _) =>
        { s with toFill := cells, asked := s.asked ++ bufferCells ptr (size * n) }
    else none
  | .send =>
    match s.toSend with
    | [] => none
    | b :: rest => (s.ring.step (.writer, .start (.produce b))).map fun ring => { s with ring, toSend := rest }
  | .receive =>
    match s.toFill with
    | [] => none
    | _ :: _ => (s.ring.step (.reader, .start .consume)).map fun ring => { s with ring }
  | .turn .writer => (s.ring.step (.writer, .turn)).map fun ring => { s with ring }
  | .turn .reader => (s.ring.step (.reader, .turn)).map fun ring => s.store ring

/-- A call is for a buffer that exists, and its total is cut right. -/
def CallCutRight (_ : PipeRun) : PipeAction → Prop
  | .fwrite _ _ size n => size * n < 2 ^ 64 ∧ CutRight (size * n)
  | .fread _ size n => size * n < 2 ^ 64 ∧ CutRight (size * n)
  | _ => True

instance (s : PipeRun) : DecidablePred s.CallCutRight := fun a => by
  unfold CallCutRight
  split <;> infer_instance

/-- **The stream arrives**: the cells of the reader's buffers have got, in order,
the bytes of the writer's buffers. A call of the reader that has returned has
filled all its cells, one of the writer has sent all its bytes. -/
structure Delivered (s : PipeRun) : Prop where
  stream : s.filled <+: s.asked.zip (s.written.map some)
  read : s.toFill = [] → s.filled.length = s.asked.length
  sent : s.toSend = [] → s.ring.pending .writer = none → s.ring.produced = s.written

/-- The byte that `produce` is about to put. -/
def inHand (s : PipeRun) : List (BitVec 8) :=
  match s.ring.pending .writer with
  | some (.produce b) => [b]
  | _ => []

structure Inv (s : PipeRun) : Prop where
  fifo : s.ring.Fifo
  writer : ∀ c, s.ring.pending .writer = some c → ∃ b, c = .produce b
  reader : ∀ c, s.ring.pending .reader = some c → c = .consume ∧ s.toFill ≠ []
  sent : s.ring.produced ++ s.inHand ++ s.toSend = s.written
  stored : s.ring.consumed = s.filled.map Prod.snd
  cells : s.filled.map Prod.fst ++ s.toFill = s.asked

variable {s s' : PipeRun}

theorem inv_start {capacity : ℕ} (h : 1 ≤ capacity) : (start capacity).Inv where
  fifo := .of_queue (l := []) rfl (PCRing.repr_new h)
  writer := nofun
  reader := nofun
  sent := rfl
  stored := rfl
  cells := rfl

theorem inHand_some {b : BitVec 8} (h : s.ring.pending .writer = some (.produce b)) : s.inHand = [b] := by
  unfold inHand
  rw [h]

theorem inHand_none (h : s.ring.pending .writer = none) : s.inHand = [] := by
  unfold inHand
  rw [h]

theorem inHand_congr (h : s'.ring.pending .writer = s.ring.pending .writer) : s'.inHand = s.inHand := by
  unfold inHand
  rw [h]

theorem Inv.delivered (h : s.Inv) : s.Delivered where
  stream := by
    have hbytes : s.filled.map Prod.snd <+: s.written.map some := by
      rw [← h.stored]
      refine h.fifo.pre.trans ?_
      rw [← h.sent, List.append_assoc, List.map_append]
      exact List.prefix_append _ _
    have hcells : s.filled.map Prod.fst <+: s.asked := ⟨s.toFill, h.cells⟩
    obtain ⟨bs, hbs⟩ := hbytes
    obtain ⟨cs, hcs⟩ := hcells
    have hzip : (s.filled.map Prod.fst).zip (s.filled.map Prod.snd) = s.filled := by
      rw [List.zip_map', List.map_id']
    refine ⟨cs.zip bs, ?_⟩
    rw [← hbs, ← hcs, List.zip_append (by rw [List.length_map, List.length_map]), hzip]
  read := by
    intro hdone
    rw [← h.cells, hdone, List.append_nil, List.length_map]
  sent := by
    intro hdone hidle
    rw [← h.sent, hdone, inHand_none hidle, List.append_nil, List.append_nil]

/-- A section that takes nothing leaves the cells as they are. -/
theorem store_same {ring : PCRun Side (BitVec 8)} (h : ring.consumed = s.ring.consumed) :
    s.store ring = { s with ring } := by
  unfold store
  rw [if_pos (by rw [h])]

/-- One that takes a byte puts it in the next cell. -/
theorem store_one {ring : PCRun Side (BitVec 8)} {v : Option (BitVec 8)} {a : ℕ} {rest : List ℕ}
    (h : ring.consumed = s.ring.consumed ++ [v]) (hcells : s.toFill = a :: rest) :
    s.store ring = { s with ring, toFill := rest, filled := s.filled ++ [(a, v)] } := by
  unfold store
  rw [if_neg (by rw [h, List.length_append]; simp), hcells, h, List.getLast?_concat]

/-- **A call** with such a total only adds its buffer to what the stream is. -/
theorem inv_fwrite (h : s.Inv) {mem : Memory} {ptr size n : ℕ}
    (hcall : s.CallCutRight (.fwrite mem ptr size n)) (hs : s.step (.fwrite mem ptr size n) = some s') :
    s'.Inv := by
  rw [step] at hs
  split at hs
  · rename_i hidle
    rw [fwriteOut_of_cutRight hcall.1 hcall.2, Option.map_some] at hs
    obtain rfl := Option.some.inj hs
    refine ⟨h.fifo, h.writer, h.reader, ?_, h.stored, h.cells⟩
    show s.ring.produced ++ s.inHand ++ List.map Prod.snd (List.map _ _) = s.written ++ _
    rw [← h.sent, hidle.2, List.append_nil, List.map_map]
    rfl
  · cases hs

theorem inv_fread (h : s.Inv) {ptr size n : ℕ} (hcall : s.CallCutRight (.fread ptr size n))
    (hs : s.step (.fread ptr size n) = some s') : s'.Inv := by
  rw [step] at hs
  split at hs
  · rename_i hidle
    rw [freadIn_of_cutRight hcall.1 hcall.2, Option.map_some] at hs
    obtain rfl := Option.some.inj hs
    refine ⟨h.fifo, h.writer, fun c hc => ?_, h.sent, h.stored, ?_⟩
    · rw [show s.ring.pending .reader = some c from hc] at hidle
      cases hidle.1
    · show s.filled.map Prod.fst ++ _ = s.asked ++ _
      rw [← h.cells, hidle.2, List.append_nil]
  · cases hs

/-- **The next byte** is in the hand of `produce` instead of in the buffer. -/
theorem inv_send (h : s.Inv) (hs : s.step .send = some s') : s'.Inv := by
  rw [step] at hs
  split at hs
  · cases hs
  · rename_i b rest hrest
    obtain ⟨ring, hring, rfl⟩ := Option.map_eq_some_iff.mp hs
    have hfifo := PCRun.fifo_step h.fifo hring
    obtain ⟨hidle, rfl⟩ := PCRun.step_start hring
    have hself : update s.ring.pending .writer (some (.produce b)) .writer = some (.produce b) :=
      update_self _ _ _
    have hother : update s.ring.pending .writer (some (.produce b)) .reader = s.ring.pending .reader :=
      update_of_ne (by decide) _ _
    refine ⟨hfifo, fun c hc => ⟨b, ?_⟩, fun c hc => h.reader c (hother.symm.trans hc), ?_, h.stored, h.cells⟩
    · exact Option.some.inj (hc.symm.trans hself)
    · rw [inHand_some hself, ← h.sent, inHand_none hidle, hrest, List.append_nil, List.append_assoc]
      rfl

theorem inv_receive (h : s.Inv) (hs : s.step .receive = some s') : s'.Inv := by
  rw [step] at hs
  split at hs
  · cases hs
  · rename_i a rest hrest
    obtain ⟨ring, hring, rfl⟩ := Option.map_eq_some_iff.mp hs
    have hfifo := PCRun.fifo_step h.fifo hring
    obtain ⟨hidle, rfl⟩ := PCRun.step_start hring
    have hself : update s.ring.pending .reader (some .consume) .reader = some .consume := update_self _ _ _
    have hother : update s.ring.pending .reader (some .consume) .writer = s.ring.pending .writer :=
      update_of_ne (by decide) _ _
    refine ⟨hfifo, fun c hc => h.writer c (hother.symm.trans hc), fun c hc => ⟨?_, ?_⟩, ?_, h.stored, h.cells⟩
    · exact Option.some.inj (hc.symm.trans hself)
    · rw [hrest]
      exact List.cons_ne_nil _ _
    · refine (congrArg (s.ring.produced ++ · ++ s.toSend) ?_).trans h.sent
      exact inHand_congr hother

/-- **A section of the writer** puts the byte that it has in its hand, or nothing. -/
theorem inv_writer (h : s.Inv) (hs : s.step (.turn .writer) = some s') : s'.Inv := by
  rw [step] at hs
  obtain ⟨ring, hring, rfl⟩ := Option.map_eq_some_iff.mp hs
  have hfifo := PCRun.fifo_step h.fifo hring
  cases hcall : s.ring.pending .writer with
  | none =>
    rw [PCRun.step, hcall] at hring
    cases hring
  | some c =>
    obtain ⟨b, rfl⟩ := h.writer c hcall
    obtain rfl | ⟨hpending, hproduced, hconsumed⟩ := PCRun.step_produce hcall hring
    · exact h
    have hself : ring.pending .writer = none := by rw [hpending, update_self]
    have hother : ring.pending .reader = s.ring.pending .reader := by
      rw [hpending, update_of_ne (by decide)]
    refine ⟨hfifo, fun c hc => ?_, fun c hc => h.reader c (hother.symm.trans hc), ?_, hconsumed.trans h.stored, h.cells⟩
    · cases hself.symm.trans hc
    · rw [inHand_none hself, ← h.sent, inHand_some hcall, hproduced, List.append_nil]

/-- **A section of the reader** fills the next cell, or none. -/
theorem inv_reader (h : s.Inv) (hs : s.step (.turn .reader) = some s') : s'.Inv := by
  rw [step] at hs
  obtain ⟨ring, hring, rfl⟩ := Option.map_eq_some_iff.mp hs
  have hfifo := PCRun.fifo_step h.fifo hring
  cases hcall : s.ring.pending .reader with
  | none =>
    rw [PCRun.step, hcall] at hring
    cases hring
  | some c =>
    obtain ⟨rfl, hcells⟩ := h.reader c hcall
    obtain rfl | ⟨v, hpending, hproduced, hconsumed⟩ := PCRun.step_consume hcall hring
    · rw [store_same rfl]
      exact h
    obtain ⟨a, rest, hrest⟩ := List.exists_cons_of_ne_nil hcells
    have hself : ring.pending .reader = none := by rw [hpending, update_self]
    have hother : ring.pending .writer = s.ring.pending .writer := by
      rw [hpending, update_of_ne (by decide)]
    rw [store_one hconsumed hrest]
    refine ⟨hfifo, fun c hc => h.writer c (hother.symm.trans hc), fun c hc => ?_, ?_, ?_, ?_⟩
    · cases hself.symm.trans hc
    · refine (congrArg₂ (· ++ · ++ s.toSend) hproduced ?_).trans h.sent
      exact inHand_congr hother
    · show ring.consumed = (s.filled ++ [(a, v)]).map Prod.snd
      rw [hconsumed, h.stored, List.map_append]
      rfl
    · show (s.filled ++ [(a, v)]).map Prod.fst ++ rest = s.asked
      rw [← h.cells, hrest, List.map_append, List.append_assoc]
      rfl

/-- **One step** of the writer or of the reader. -/
theorem inv_pipeStep (h : s.Inv) {a : PipeAction} (hcall : s.CallCutRight a) (hs : s.step a = some s') :
    s'.Inv := by
  cases a with
  | fwrite => exact inv_fwrite h hcall hs
  | fread => exact inv_fread h hcall hs
  | send => exact inv_send h hs
  | receive => exact inv_receive h hs
  | turn side =>
    cases side with
    | writer => exact inv_writer h hs
    | reader => exact inv_reader h hs

/-- **Pipe streams transfer what is asked** just when the total of a call is below
100 or a multiple of 100; and when all calls of a writer and a reader are such,
the stream arrives, however they are cut and whenever the sections run. -/
theorem pipe_exact (ptr size n : ℕ) (hlt : size * n < 2 ^ 64) :
    (∀ mem, FwriteExact mem ptr size n ↔ CutRight (size * n)) ∧ (FreadExact ptr size n ↔ CutRight (size * n)) ∧
      ∀ capacity ops s, 1 ≤ capacity → Lib.Meets step CallCutRight ops (start capacity) →
        Lib.run step ops (start capacity) = some s → s.Delivered := by
  refine ⟨fun _ => fwriteExact_iff hlt, freadExact_iff hlt, fun capacity ops s hcapacity hmeets hrun => ?_⟩
  have hstep : ∀ s call s', Inv s → CallCutRight s call → step s call = some s' → Inv s' :=
    fun _ _ _ h hcall hs => inv_pipeStep h hcall hs
  have hinv : Inv s := Lib.run_invariant_of_meets hstep ops hmeets (inv_start hcapacity) hrun
  exact hinv.delivered

/-- One byte through a pipe of one cell, in two steps of each side. -/
theorem pipe_exact_byte :
    ∃ s, Lib.run step [.fread 8 1 1, .receive, .turn .reader, .fwrite (fun _ => 7) 0 1 1, .send,
      .turn .writer, .turn .reader] (start 1) = some s ∧ s.filled = [(8, some 7)] ∧ s.Delivered := by
  refine ⟨?s, ?hrun, ?hfilled, (pipe_exact 0 1 1 (by decide)).2.2 1 _ ?s (by decide) ?hmeets ?hrun⟩
  case hrun => rfl
  case hfilled => rfl
  case hmeets => decide

/-- 150 bytes are sent as 200, and 50 of them are not in the buffer. -/
theorem pipe_past_buffer : ¬ FwriteExact (fun _ => 0) 0 1 150 := by
  rw [fwriteExact_iff (by decide)]
  decide

end PipeRun
end WingOS
