/-
# The queues of the NVMe driver

A pair of queues of `NvmeController` (`app/disk/nvme/controller.hpp`): memory for
commands and memory for completions, an index into each, and the phase that the
driver waits for. `nvme_await_submit` takes the next entry of both, writes the
command, rings the doorbell and polls the completion.

The controller is a pair of rings of the sizes it was given. When its doorbell is
rung it fetches the entries up to the new tail and posts a completion for each,
with a phase that alternates each lap.

The driver rounds its queues up to whole pages, and never uses the last entry of
a queue: it goes back to the first one a command too early. It is in step with
the controller as long as it has sent fewer commands than the submission ring
has entries (`inStep_iff`).

Key definitions: `Queue.create`, `Queue.allocate`, `Controller.doorbell`,
`nvmeAwaitSubmit`, `InStep`.
Key theorems: `allocate_eq`, `nvmeAwaitSubmit_spec`, `inStep_iff`.
-/
import Mathlib.Algebra.Group.Nat.Defs
import Mathlib.Logic.Function.Basic
import Mathlib.Data.List.Basic
import Mathlib.Tactic.Common

namespace WingOS
namespace Nvme

open Function (update)

/-- What the union of `NvmeCmd` says. -/
inductive Dwords
  | raw
  | createQueue (qid qsize : ℕ)
  | readWrite (lba nlb : ℕ)
  deriving DecidableEq

structure NvmeCmd where
  opcode : ℕ
  cid : ℕ := 0
  nsid : ℕ := 0
  prp1 : ℕ := 0
  prp2 : ℕ := 0
  dwords : Dwords := .raw
  deriving DecidableEq

structure CompletionQueueEntry where
  phaseBit : Bool
  status : ℕ
  deriving DecidableEq

/-- `sizeof(NvmeCmd)`. -/
def sizeofNvmeCmd : ℕ := 64

/-- `sizeof(CompletionQueueEntry)`. -/
def sizeofCompletionQueueEntry : ℕ := 16

/-- A `Queue`; its entry `i` is at `base_addr + i * sizeof(T)`. -/
structure Queue where
  count : ℕ
  tail : ℕ
  deriving DecidableEq

/-- `Queue::create`, for entries of `size` bytes: as many as whole pages hold. The
number of slots comes from a field of 16 bits, so nothing overflows. -/
def Queue.create (size count : ℕ) : Queue where
  count := (count * size + 4095) / 4096 * 4096 / size
  tail := 0

def Queue.willLoop (q : Queue) : Bool := decide (q.count ≤ q.tail + 1)

/-- `Queue::allocate`, up to `n` calls deep: the index of the entry. -/
def Queue.allocateWithin : ℕ → Queue → Option (ℕ × Queue)
  | 0, _ => none
  | n + 1, q =>
    let res := q.tail
    let q := { q with tail := q.tail + 1 }
    if q.count ≤ q.tail then Queue.allocateWithin n { q with tail := 0 } else some (res, q)

/-- `Queue::allocate`; `none` says that it calls itself for ever (`allocateWithin_eq`). -/
def Queue.allocate (q : Queue) : Option (ℕ × Queue) := q.allocateWithin 2

structure Queues where
  commandQueue : Queue
  completeQueue : Queue
  id : ℕ
  cid : ℕ
  phase : Bool
  deriving DecidableEq

/-- `create_queues`, without the memory for PRP lists. -/
def Queues.create (slots id : ℕ) : Queues where
  commandQueue := Queue.create sizeofNvmeCmd slots
  completeQueue := Queue.create sizeofCompletionQueueEntry slots
  id := id
  cid := 0
  phase := true

/-- The controller's side: the sizes of its rings, what it fetches next, where it
posts next, and with which phase. -/
structure Controller where
  size : ℕ
  completionSize : ℕ
  head : ℕ
  posted : ℕ
  phase : Bool

/-- The driver, the controller, and the memory that both see. -/
structure World where
  queues : Queues
  submissions : ℕ → NvmeCmd
  completions : ℕ → CompletionQueueEntry
  controller : Controller

/-- The entries from the controller's head to the tail that the doorbell says;
none if that is no entry of its ring. -/
def Controller.fetched (c : Controller) (submissions : ℕ → NvmeCmd) (tail : ℕ) : List NvmeCmd :=
  if tail < c.size then
    (List.range ((tail + c.size - c.head) % c.size)).map fun i => submissions ((c.head + i) % c.size)
  else []

/-- The controller posts one completion. -/
def World.post (w : World) (status : ℕ) : World :=
  { w with
    completions := update w.completions w.controller.posted ⟨w.controller.phase, status⟩
    controller := { w.controller with
      posted := (w.controller.posted + 1) % w.controller.completionSize
      phase := if w.controller.posted + 1 = w.controller.completionSize then !w.controller.phase
        else w.controller.phase } }

/-- The submission doorbell: the controller fetches, and answers each command
with what `status` says. -/
def World.doorbell (status : NvmeCmd → ℕ) (w : World) (tail : ℕ) : World :=
  let fetched := w.controller.fetched w.submissions tail
  let head := if tail < w.controller.size then tail else w.controller.head
  fetched.foldl (fun w cmd => w.post (status cmd)) { w with controller := { w.controller with head } }

/-- What one call of `nvme_await_submit` did: where it wrote the command, what it
wrote to the doorbell, what the controller fetched then, and which entry it polled
for which phase. -/
structure Submitted where
  slot : ℕ
  doorbell : ℕ
  fetched : List NvmeCmd
  polled : ℕ
  phase : Bool
  deriving DecidableEq

/-- `nvme_await_submit`, and how it returns; `none` says that it does not. -/
def nvmeAwaitSubmit (status : NvmeCmd → ℕ) (cmd : NvmeCmd) (w : World) :
    Option (Except String Unit × Submitted × World) := do
  let q := w.queues
  let phase := if q.completeQueue.willLoop then !q.phase else q.phase
  let (slot, commandQueue) ← q.commandQueue.allocate
  let (polled, completeQueue) ← q.completeQueue.allocate
  let submissions := update w.submissions slot { cmd with cid := q.cid % 2 ^ 16 }
  let w := { w with queues := { q with commandQueue, completeQueue, phase, cid := q.cid + 1 }, submissions }
  let out : Submitted :=
    ⟨slot, commandQueue.tail, w.controller.fetched submissions commandQueue.tail, polled, phase⟩
  let w := w.doorbell status commandQueue.tail
  let completion := w.completions polled
  -- if the phase is not there now, nothing will write it
  if completion.phaseBit = phase then
    some (if completion.status ≠ 0 then .error "nvme command failed" else .ok (), out, w)
  else none

/-- Commands that are passed to `nvme_await_submit` one after the other. -/
def submits (status : NvmeCmd → ℕ) : List NvmeCmd → World → Option (List Submitted × World)
  | [], w => some ([], w)
  | cmd :: cmds, w => do
    let (_, out, w) ← nvmeAwaitSubmit status cmd w
    let (outs, w) ← submits status cmds w
    some (out :: outs, w)

/-- The admin queues, and those of a device. -/
inductive Pair
  | admin
  | io
  deriving DecidableEq

/-- What the controller is told, the size of the submission ring and that of the
completion ring: `setup` writes the number of slots it asked for, and
`nvme_create_queues` the `count` of each queue. -/
def programmed (pair : Pair) (slots : ℕ) : ℕ × ℕ :=
  match pair with
  | .admin => (slots, slots)
  | .io => ((Queue.create sizeofNvmeCmd slots).count, (Queue.create sizeofCompletionQueueEntry slots).count)

/-- The queues are new, and zero. -/
def World.start (pair : Pair) (slots id : ℕ) : World where
  queues := Queues.create slots id
  submissions := fun _ => { opcode := 0 }
  completions := fun _ => ⟨false, 0⟩
  controller := ⟨(programmed pair slots).1, (programmed pair slots).2, 0, 0, true⟩

/-- The `n`-th command is where the controller looks for it, the controller
fetches it and nothing else, and the driver looks where the answer is. -/
def Fits (size completionSize n : ℕ) (cmd : NvmeCmd) (out : Submitted) : Prop :=
  out = ⟨n % size, (n + 1) % size, [{ cmd with cid := n % 2 ^ 16 }], n % completionSize,
    n / completionSize % 2 = 0⟩

/-- The driver gets through the commands, in step with the controller. -/
def InStep (status : NvmeCmd → ℕ) (pair : Pair) (slots id : ℕ) (cmds : List NvmeCmd) : Prop :=
  ∃ outs w, submits status cmds (World.start pair slots id) = some (outs, w) ∧
    ∀ n cmd, cmds[n]? = some cmd → ∃ out, outs[n]? = some out ∧
      Fits (programmed pair slots).1 (programmed pair slots).2 n cmd out

/-! ### One command -/

section Submit

variable {status : NvmeCmd → ℕ} {pair : Pair} {slots id n : ℕ} {cmd : NvmeCmd} {w : World}

/-- The entry at the end of the queue is passed over; in a queue of one entry
`allocate` does not return, however deep it calls itself. -/
theorem allocateWithin_eq (q : Queue) (n : ℕ) : q.allocateWithin (n + 2) =
    if q.tail + 1 < q.count then some (q.tail, { q with tail := q.tail + 1 })
    else if 1 < q.count then some (0, { q with tail := 1 }) else none := by
  have hnever : ∀ m : ℕ, ¬ 1 < q.count → Queue.allocateWithin m { q with tail := 0 } = none := fun m h => by
    induction m with
    | zero => rfl
    | succ m ih =>
      rw [Queue.allocateWithin]
      exact (if_pos (Nat.not_lt.mp h)).trans ih
  have hwrapped : Queue.allocateWithin (n + 1) { q with tail := 0 } =
      if 1 < q.count then some (0, { q with tail := 1 }) else none := by
    by_cases hone : 1 < q.count
    · rw [Queue.allocateWithin, if_pos hone]
      exact if_neg (Nat.not_le.mpr hone)
    · rw [hnever _ hone, if_neg hone]
  by_cases hroom : q.tail + 1 < q.count
  · rw [Queue.allocateWithin, if_pos hroom]
    exact if_neg (Nat.not_le.mpr hroom)
  · rw [if_neg hroom, ← hwrapped, Queue.allocateWithin]
    exact if_pos (Nat.not_lt.mp hroom)

theorem allocate_of_lt {q : Queue} (h : q.tail + 1 < q.count) :
    q.allocate = some (q.tail, { q with tail := q.tail + 1 }) := (allocateWithin_eq q 0).trans (if_pos h)

/-- The tail is never 0 after a command. -/
theorem tail_pos {q q' : Queue} {slot : ℕ} (h : q.allocate = some (slot, q')) : 0 < q'.tail := by
  rw [Queue.allocate, allocateWithin_eq] at h
  split at h
  · cases h
    exact Nat.succ_pos _
  · split at h
    · cases h
      exact Nat.one_pos
    · cases h

/-- A queue without entries gives none. -/
theorem allocate_none {q : Queue} (h : q.count = 0) : q.allocate = none := by
  rw [Queue.allocate, allocateWithin_eq, if_neg (by omega), if_neg (by omega)]

/-- Both sides stand at the entry `n`, in the first lap. -/
structure InSync (pair : Pair) (slots id n : ℕ) (w : World) : Prop where
  queues : w.queues = ⟨⟨(Queue.create sizeofNvmeCmd slots).count, n⟩,
    ⟨(Queue.create sizeofCompletionQueueEntry slots).count, n⟩, id, n, true⟩
  controller : w.controller = ⟨(programmed pair slots).1, (programmed pair slots).2, n, n, true⟩

/-- The rings are no longer than the queues, and the submission ring no longer than the completion ring. -/
theorem programmed_le (pair : Pair) (slots : ℕ) :
    (programmed pair slots).1 ≤ (Queue.create sizeofNvmeCmd slots).count ∧
      (programmed pair slots).1 ≤ (programmed pair slots).2 ∧
      (programmed pair slots).2 ≤ (Queue.create sizeofCompletionQueueEntry slots).count := by
  unfold programmed Queue.create sizeofNvmeCmd sizeofCompletionQueueEntry
  cases pair <;> dsimp only <;> omega

variable (status cmd) in
/-- **One command**, while the tail has not come to the end of the ring. -/
theorem nvmeAwaitSubmit_spec (h : InSync pair slots id n w) (hn : n + 1 < (programmed pair slots).1) :
    ∃ res out w', nvmeAwaitSubmit status cmd w = some (res, out, w') ∧ InSync pair slots id (n + 1) w' ∧
      Fits (programmed pair slots).1 (programmed pair slots).2 n cmd out ∧
      res = if status { cmd with cid := n % 2 ^ 16 } ≠ 0 then .error "nvme command failed" else .ok () := by
  obtain ⟨hcommand, hrings, hcomplete⟩ := programmed_le pair slots
  have hq := h.queues
  have hc := h.controller
  have hloop : w.queues.completeQueue.willLoop = false := by
    rw [hq]
    exact decide_eq_false (by dsimp only; omega)
  have hslot : w.queues.commandQueue.allocate =
      some (n, ⟨(Queue.create sizeofNvmeCmd slots).count, n + 1⟩) := by
    rw [hq]
    exact allocate_of_lt (by dsimp only; omega)
  have hpolled : w.queues.completeQueue.allocate =
      some (n, ⟨(Queue.create sizeofCompletionQueueEntry slots).count, n + 1⟩) := by
    rw [hq]
    exact allocate_of_lt (by dsimp only; omega)
  have hphase : w.queues.phase = true := by rw [hq]
  have hcid : w.queues.cid = n := by rw [hq]
  -- the controller fetches one entry, the one just written
  have hfetched : w.controller.fetched (update w.submissions n { cmd with cid := n % 2 ^ 16 }) (n + 1) =
      [{ cmd with cid := n % 2 ^ 16 }] := by
    have hone : (n + 1 + (programmed pair slots).1 - n) % (programmed pair slots).1 = 1 := by
      rw [show n + 1 + (programmed pair slots).1 - n = 1 + (programmed pair slots).1 by omega,
        Nat.add_mod_right, Nat.mod_eq_of_lt (by omega)]
    have hmod : n % (programmed pair slots).1 = n := Nat.mod_eq_of_lt (by omega)
    unfold Controller.fetched
    rw [hc]
    dsimp only
    rw [if_pos hn, hone, List.range_one, List.map_singleton, Nat.add_zero, hmod, Function.update_self]
  have hposted : n + 1 < (programmed pair slots).2 := by omega
  unfold nvmeAwaitSubmit
  simp only [hloop, Bool.false_eq_true, if_false, hslot, hpolled, Option.bind_eq_bind, Option.bind_some, hphase, hcid,
    World.doorbell, hfetched, List.foldl_cons, List.foldl_nil]
  simp only [World.post, hc, hn, if_true, Function.update_self, Nat.ne_of_lt hposted, if_false,
    Nat.mod_eq_of_lt hposted]
  refine ⟨_, _, _, rfl, ⟨?_, rfl⟩, ?_, rfl⟩
  · dsimp only
    rw [hq]
  · unfold Fits
    rw [Nat.mod_eq_of_lt (by omega : n < (programmed pair slots).1), Nat.mod_eq_of_lt hn,
      Nat.mod_eq_of_lt (by omega : n < (programmed pair slots).2), Nat.div_eq_of_lt (by omega)]
    rfl

/-- **Commands in step**, while the tail has not come to the end of the ring. -/
theorem submits_spec : ∀ (cmds : List NvmeCmd) (n : ℕ) {w : World}, InSync pair slots id n w →
    n + cmds.length < (programmed pair slots).1 →
    ∃ outs w', submits status cmds w = some (outs, w') ∧
      ∀ k cmd, cmds[k]? = some cmd → ∃ out, outs[k]? = some out ∧
        Fits (programmed pair slots).1 (programmed pair slots).2 (n + k) cmd out
  | [], n, w, _, _ => ⟨[], w, rfl, fun k cmd hk => by simp at hk⟩
  | cmd :: cmds, n, w, h, hlen => by
    rw [List.length_cons] at hlen
    obtain ⟨res, out, w₁, hsubmit, hsync, hfits, -⟩ := nvmeAwaitSubmit_spec status cmd h (by omega)
    obtain ⟨outs, w₂, hrest, hall⟩ := submits_spec cmds (n + 1) hsync (by omega)
    refine ⟨out :: outs, w₂, ?_, fun k c hk => ?_⟩
    · simp only [submits, hsubmit, hrest, Option.bind_eq_bind, Option.bind_some]
    · cases k with
      | zero =>
        cases hk
        exact ⟨out, rfl, hfits⟩
      | succ k =>
        rw [show n + (k + 1) = n + 1 + k by omega]
        exact hall k c hk

/-- What the driver writes to the doorbell is never 0. -/
theorem doorbell_pos {res : Except String Unit} {out : Submitted} {w' : World}
    (h : nvmeAwaitSubmit status cmd w = some (res, out, w')) : 0 < out.doorbell := by
  unfold nvmeAwaitSubmit at h
  obtain ⟨⟨slot, commandQueue⟩, hslot, h⟩ := Option.bind_eq_some_iff.mp h
  obtain ⟨⟨polled, completeQueue⟩, -, h⟩ := Option.bind_eq_some_iff.mp h
  obtain ⟨-, h⟩ := Option.ite_none_right_eq_some.mp h
  cases h
  exact tail_pos hslot

theorem doorbells_pos : ∀ {cmds : List NvmeCmd} {w w' : World} {outs : List Submitted},
    submits status cmds w = some (outs, w') → ∀ out ∈ outs, 0 < out.doorbell
  | [], w, w', outs, h => by
    cases h
    exact fun out hout => absurd hout List.not_mem_nil
  | cmd :: cmds, w, w', outs, h => by
    obtain ⟨⟨res, out, w₁⟩, hsubmit, h⟩ := Option.bind_eq_some_iff.mp h
    obtain ⟨⟨outs', w₂⟩, hrest, h⟩ := Option.bind_eq_some_iff.mp h
    cases h
    intro o ho
    rcases List.mem_cons.mp ho with rfl | ho
    · exact doorbell_pos hsubmit
    · exact doorbells_pos hrest o ho

theorem submits_cons_none {cmds : List NvmeCmd} (h : w.queues.commandQueue.allocate = none) :
    submits status (cmd :: cmds) w = none := by
  simp only [submits, nvmeAwaitSubmit, h, Option.bind_eq_bind, Option.bind_none]

/-- **The driver is in step** exactly with fewer commands than the submission
ring has entries. -/
theorem inStep_iff (status : NvmeCmd → ℕ) (pair : Pair) (slots id : ℕ) (cmds : List NvmeCmd) :
    InStep status pair slots id cmds ↔ cmds = [] ∨ cmds.length < (programmed pair slots).1 := by
  constructor
  · rintro ⟨outs, w, hrun, hall⟩
    by_contra hnot
    obtain ⟨hne, hlen⟩ := not_or.mp hnot
    obtain ⟨cmd, rest, rfl⟩ := List.exists_cons_of_ne_nil hne
    by_cases hzero : (programmed pair slots).1 = 0
    · -- no slots were asked for
      have hcount : (Queue.create sizeofNvmeCmd slots).count = 0 := by
        unfold programmed Queue.create sizeofNvmeCmd at hzero
        unfold Queue.create sizeofNvmeCmd
        cases pair <;> dsimp only at hzero ⊢ <;> omega
      rw [submits_cons_none (allocate_none hcount)] at hrun
      cases hrun
    · -- the command for the last entry of the ring
      have hlast : (programmed pair slots).1 - 1 < (cmd :: rest).length := by omega
      obtain ⟨out, hout, hfits⟩ := hall _ _ (List.getElem?_eq_getElem hlast)
      have hpos := doorbells_pos hrun out (List.mem_of_getElem? hout)
      have hdoorbell : out.doorbell = 0 := by
        rw [hfits, Nat.sub_add_cancel (by omega)]
        exact Nat.mod_self _
      omega
  · rintro (rfl | hlen)
    · exact ⟨[], _, rfl, fun n cmd h => by simp at h⟩
    · obtain ⟨outs, w, hrun, hall⟩ := submits_spec cmds 0 (w := World.start pair slots id) ⟨rfl, rfl⟩ (by omega)
      refine ⟨outs, w, hrun, fun n cmd hn => ?_⟩
      have hfits := hall n cmd hn
      rwa [Nat.zero_add] at hfits

/-- Two commands for a controller that was told of two slots: the driver, whose
queue has 64, rings the doorbell with 2. -/
theorem two_slots_out_of_step :
    ¬ InStep (fun _ => 0) .admin 2 0 [{ opcode := 6 }, { opcode := 6 }] := by
  rintro ⟨outs, w, hrun, hall⟩
  obtain ⟨out, hout, hfits⟩ := hall 1 _ rfl
  have hpos := doorbells_pos hrun out (List.mem_of_getElem? hout)
  have hdoorbell : out.doorbell = 0 := by rw [hfits]; rfl
  omega

end Submit

end Nvme
end WingOS
