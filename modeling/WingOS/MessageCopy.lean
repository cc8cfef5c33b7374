/-
# Copying a message

The move constructor and assignment of `IpcMessage`, and `IpcMessage::copy`
(`wingos-headers/ipc.h`). Each takes the fields over and then copies as many words
of `buffer` as `len` bytes need. Nothing compares `len`, which comes from user
space, with the size of the buffer: from 113 bytes on the loop goes on behind it.
An access behind the buffer is where a copy does not get through. A message that
is not initialized has anything in its buffer (`raw`).

Key definitions: `copyBuffer`, `moveConstruct`, `moveAssign`, `copy`, `Carries`.
Key theorems: `copyBuffer_spec`, `copyBuffer_none`, `copies_inside_iff`.
-/
import WingOS.IpcSend
import WingOS.Lib.Bytes
import WingOS.Range

namespace WingOS
namespace MessageCopy

open Function (update)
open Lib (byteOf run)
open IpcSend (IpcMessage)

/-- `MAX_IPC_BUFFER_SIZE`. -/
def maxBufferSize : ℕ := 112

/-- `buffer[i] = other.buffer[i]`, which has to be in the buffer. -/
def copyWord (other msg : IpcMessage) (i : ℕ) : Option IpcMessage :=
  if i < maxBufferSize / 8 then some { msg with buffer := update msg.buffer i (other.buffer i) } else none

/-- The fields of `other`, before its buffer. -/
def takeFields (msg other : IpcMessage) : IpcMessage :=
  { msg with
    arguments := other.arguments
    port := other.port
    len := other.len
    isNull := other.isNull
    interrupted := other.interrupted }

/-- `msg` with the fields of `other`, and then the loop over the words of its buffer. -/
def copyBuffer (msg other : IpcMessage) : Option IpcMessage :=
  run (copyWord other) (List.range' 0 (alignUp other.len 8 / 8)) (takeFields msg other)

/-- `IpcMessage(IpcMessage &&other)`. -/
def moveConstruct (raw : ℕ → ℕ) (other : IpcMessage) : Option IpcMessage :=
  copyBuffer { IpcMessage.empty with buffer := raw } other

/-- `IpcMessage::copy`. -/
def copy (raw : ℕ → ℕ) (other : IpcMessage) : Option IpcMessage :=
  let msg := { IpcMessage.empty with buffer := raw }
  copyBuffer msg other

variable {ι : Type} [DecidableEq ι]

/-- `operator=(IpcMessage &&other)`, on the messages that there are. -/
def moveAssign (s : ι → IpcMessage) (this other : ι) : Option (ι → IpcMessage) :=
  if this ≠ other then (copyBuffer (s this) (s other)).map (update s this) else some s

/-- The byte `raw_buffer[i]`. -/
def payload (msg : IpcMessage) (i : ℕ) : BitVec 8 := byteOf (msg.buffer (i / 8)) (i % 8)

/-- `msg` has the fields of `other`, and the bytes of its payload that fit a buffer. -/
structure Carries (other msg : IpcMessage) : Prop where
  arguments : msg.arguments = other.arguments
  port : msg.port = other.port
  isNull : msg.isNull = other.isNull
  interrupted : msg.interrupted = other.interrupted
  payload (i : ℕ) (h : i < min other.len maxBufferSize) : payload msg i = payload other i

variable {other msg : IpcMessage} {s : ι → IpcMessage}

/-- The number of words that the loop copies. -/
theorem words_eq {len : ℕ} (h : len < 2 ^ 16) : alignUp len 8 / 8 = (len + 7) / 8 := by
  have halign : alignUp len 8 = 8 * ((len + 8 - 1) % 2 ^ 64 / 8) := alignUp_eq (k := 3) (by decide) len
  omega

/-- The loop changes the words of the buffer that it copies, and nothing else. -/
theorem copyWords_spec (other : IpcMessage) (n : ℕ) (hn : n ≤ 14) (msg : IpcMessage) :
    ∃ msg', run (copyWord other) (List.range' 0 n) msg = some msg' ∧ (∀ i < n, msg'.buffer i = other.buffer i) ∧
      msg' = { msg with buffer := msg'.buffer } := by
  have hloop := @Lib.run_range _ (copyWord other)
    (fun j msg' => (∀ i < j, msg'.buffer i = other.buffer i) ∧ msg' = { msg with buffer := msg'.buffer }) n 0
    msg ?_ ⟨fun i hi => absurd hi (Nat.not_lt_zero i), rfl⟩
  · rwa [Nat.zero_add] at hloop
  · intro j m _ hj ⟨hbuffer, hrest⟩
    refine ⟨{ m with buffer := update m.buffer j (other.buffer j) }, ?_, fun i hi => ?_, ?_⟩
    · unfold copyWord maxBufferSize
      exact if_pos (by omega)
    · by_cases hij : i = j
      · rw [hij]
        exact Function.update_self ..
      · exact (Function.update_of_ne hij ..).trans (hbuffer i (by omega))
    · rw [hrest]

/-- A message that fits is copied whole. -/
theorem copyBuffer_spec (h : other.len ≤ 112) (msg : IpcMessage) :
    ∃ msg', copyBuffer msg other = some msg' ∧ Carries other msg' := by
  have hwords : alignUp other.len 8 / 8 = (other.len + 7) / 8 := words_eq (by omega)
  obtain ⟨msg', hrun, hbuffer, hrest⟩ :=
    copyWords_spec other (alignUp other.len 8 / 8) (by omega) (takeFields msg other)
  refine ⟨msg', hrun, ?_, ?_, ?_, ?_, fun i hi => ?_⟩
  · rw [hrest]
    rfl
  · rw [hrest]
    rfl
  · rw [hrest]
    rfl
  · rw [hrest]
    rfl
  · unfold payload
    rw [hbuffer (i / 8) (by omega)]

/-- A message that does not fit takes the loop behind the buffer. -/
theorem copyBuffer_none (h : 112 < other.len) (h16 : other.len < 2 ^ 16) (msg : IpcMessage) :
    copyBuffer msg other = none := by
  have hwords := words_eq h16
  obtain ⟨k, hk⟩ := Nat.exists_eq_add_of_le (show 15 ≤ alignUp other.len 8 / 8 by omega)
  unfold copyBuffer
  rw [hk, ← List.range_eq_range', List.range_add, Lib.run_append, List.range_succ, Lib.run_append]
  cases run (copyWord other) (List.range 14) (takeFields msg other) with
  | none => rfl
  | some m => rfl

/-- The loop gets through exactly with a message that fits. -/
theorem copyBuffer_iff (h16 : other.len < 2 ^ 16) (msg : IpcMessage) :
    (∃ msg', copyBuffer msg other = some msg' ∧ Carries other msg') ↔ other.len ≤ 112 := by
  constructor
  · intro ⟨msg', hcopy, _⟩
    by_contra h
    rw [copyBuffer_none (by omega) h16] at hcopy
    cases hcopy
  · intro h
    exact copyBuffer_spec h msg

/-- **A message is copied inside its buffer** if and only if it is not longer than the buffer, or
assigned to itself. -/
theorem copies_inside_iff (raw : ℕ → ℕ) (s : ι → IpcMessage) (this other : ι) (h16 : (s other).len < 2 ^ 16) :
    ((∃ msg, moveConstruct raw (s other) = some msg ∧ Carries (s other) msg) ↔ (s other).len ≤ 112) ∧
    ((∃ msg, copy raw (s other) = some msg ∧ Carries (s other) msg) ↔ (s other).len ≤ 112) ∧
    ((∃ s', moveAssign s this other = some s' ∧ Carries (s other) (s' this)) ↔
      this = other ∨ (s other).len ≤ 112) := by
  refine ⟨copyBuffer_iff h16 _, copyBuffer_iff h16 _, ?_⟩
  unfold moveAssign
  by_cases hself : this = other
  · subst hself
    rw [if_neg (not_not.mpr rfl)]
    exact iff_of_true ⟨s, rfl, rfl, rfl, rfl, rfl, fun _ _ => rfl⟩ (Or.inl rfl)
  · rw [if_pos hself, or_iff_right hself]
    constructor
    · intro ⟨s', hassign, _⟩
      by_contra h
      rw [copyBuffer_none (by omega) h16] at hassign
      cases hassign
    · intro h
      obtain ⟨msg, hcopy, hcarries⟩ := copyBuffer_spec h (s this)
      refine ⟨update s this msg, by rw [hcopy, Option.map_some], ?_⟩
      rwa [Function.update_self]

/-- A message whose buffer is full. -/
theorem copies_inside_iff_full :
    ∃ msg, moveConstruct (fun _ => 0) ({ len := 112 } : IpcMessage) = some msg ∧ Carries { len := 112 } msg :=
  (copies_inside_iff (fun _ => 0) (fun _ : Bool => ({ len := 112 } : IpcMessage)) true false (by decide)).1.mpr
    (by decide)

/-- A message that is one byte longer than its buffer. -/
theorem copy_leaves_buffer :
    ¬ ∃ msg, copy (fun _ => 0) ({ len := 113 } : IpcMessage) = some msg ∧ Carries { len := 113 } msg := by
  intro ⟨msg, hcopy, _⟩
  rw [copy, copyBuffer_none (by decide) (by decide)] at hcopy
  cases hcopy

end MessageCopy
end WingOS
