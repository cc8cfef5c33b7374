/-
# The clock server

The loop of `app/timer/hpet/main.cpp`: it reads the clock, answers the clients
whose sleep is over, and then takes one message. As long as a client waits, it
only looks if there is one (`do_receive_async`); otherwise it blocks until there
is one (`do_receive`).

A connection has one `waiter`, so a client that sleeps again loses the call
before, and so does one that disconnects or sends what the server does not know.
Otherwise the first pass that reads a time from the end on answers, and nobody
else has to do something for it (`sleep_answered`). The clock counts
milliseconds that are rounded down, so that a sleep may be up to one of them too
short, and as its product of 64 bits starts again after five hours, a sleep that
would end later than that never ends (`sleep_lasts`).

Key definitions: `HPetConnection`, `Clock`, `Clock.pass`, `Clock.receive`,
`answered`.
Key theorems: `sleeping_step`, `forgotten_step`, `sleep_answered`, `sleep_lasts`.
-/
import WingOS.Lib.MachineInt
import WingOS.Lib.Run
import WingOS.ManagedServer

namespace WingOS

/-! ### Values that are changed in place -/

namespace UMap

variable {K V : Type*}

/-- What is done to the values of the entries. -/
def mapValues (f : K → V → V) (m : UMap K V) : UMap K V :=
  { m with buckets := m.buckets.map (List.map fun e => (e.1, f e.1 e.2)) }

variable (f : K → V → V) (m : UMap K V) {hash : K → ℕ}

theorem entries_mapValues : (m.mapValues f).entries = m.entries.map fun e => (e.1, f e.1 e.2) := by
  simp [mapValues, entries, List.map_flatten]

theorem bucket_mapValues (k : K) :
    (m.mapValues f).bucket hash k = (m.bucket hash k).map fun e => (e.1, f e.1 e.2) := by
  unfold bucket mapValues
  rw [List.length_map, List.getD_eq_getElem?_getD, List.getD_eq_getElem?_getD, List.getElem?_map]
  cases m.buckets[hash k % m.buckets.length]? <;> rfl

@[simp]
theorem count_mapValues : (m.mapValues f).count = m.count := rfl

@[simp]
theorem get_mapValues [DecidableEq K] (k : K) : (m.mapValues f).get hash k = (m.get hash k).map (f k) := by
  have hkeys : (fun e : K × V => decide (e.1 = k)) ∘ (fun e : K × V => (e.1, f e.1 e.2)) =
    fun e => decide (e.1 = k) := rfl
  unfold get
  rw [bucket_mapValues, List.find?_map, hkeys]
  cases h : (m.bucket hash k).find? fun e => e.1 = k with
  | none => rfl
  | some e =>
    have hk : e.1 = k := by simpa using List.find?_some h
    simp [hk]

variable {f m} in
theorem ok_mapValues (h : Ok hash m) : Ok hash (m.mapValues f) := by
  refine ⟨fun i b hb e he => ?_, ?_⟩
  · simp only [mapValues, List.getElem?_map, Option.map_eq_some_iff] at hb
    obtain ⟨b', hb', rfl⟩ := hb
    obtain ⟨e', he', rfl⟩ := List.mem_map.mp he
    simpa [mapValues] using h.placed i b' hb' e' he'
  · rw [entries_mapValues, List.map_map]
    exact h.keys_nodup

end UMap

namespace ClockServer

open ManagedServer (IpcMessage Ending protSignalDisconnect)

/-! ### The server -/

def clockGetSystemTime : ℕ := 1
def clockSleepMs : ℕ := 2

/-- `hpet_clock_read`, in milliseconds; the product of the counter and of the femtoseconds of a tick has 64 bits. -/
def hpetClockRead (tick counter : ℕ) : ℕ := counter * tick % 2 ^ 64 / 10 ^ 12

/-- `HPetConnection`; `waiter` is the call that is to be answered. -/
structure HPetConnection where
  waiting : Bool := false
  startTime : ℤ := 0
  endTime : ℤ := 0
  waiter : Option ℕ := none

structure Reply where
  replyObj : ℕ
  args : List ℕ
  deriving DecidableEq

/-- What `call_received` leaves. -/
structure Called where
  conn : HPetConnection
  replies : List Reply := []
  ending : Ending := .returned

/-- `call_received`. The times are of type `long`. -/
def HPetConnection.callReceived (conn : HPetConnection) (msg : IpcMessage) (replyObj : Option ℕ) (now : ℕ) : Called :=
  match msg.arg 0 with
  | none => { conn, ending := .stuck }
  | some op =>
    if op = clockGetSystemTime then
      { conn, replies := replyObj.toList.map fun r => { replyObj := r, args := [now / 1000, now] } }
    else if op = clockSleepMs then
      match replyObj, msg.arg 1 with
      | none, _ => { conn, ending := .failed "sleeping without using call()" }
      | some _, none => { conn, ending := .stuck }
      | some r, some ms =>
        { conn := { waiting := true, waiter := some r, startTime := now, endTime := Lib.long (now + Lib.long ms) } }
    else { conn, ending := .failed "unknown command" }

/-- `timer->end_time <= now`, of one that waits. -/
def HPetConnection.due (conn : HPetConnection) (now : ℕ) : Bool := conn.waiting && decide (conn.endTime ≤ now)

/-- Where `_main` stands. -/
inductive Pc
  /-- before the clock is read -/
  | pass
  /-- `do_receive`, or `do_receive_async` -/
  | receive (block : Bool)
  /-- `unreachable$` -/
  | stuck
  deriving DecidableEq

/-- The server; `calls` numbers the messages that expect a reply. -/
structure Clock where
  connections : UMap ℕ HPetConnection := {}
  pc : Pc := .pass
  calls : ℕ := 0
  replies : List Reply := []

/-- The reply to a client whose sleep is over. -/
def HPetConnection.answer (conn : HPetConnection) (now : ℕ) : Option Reply :=
  if conn.due now then conn.waiter.map fun r => { replyObj := r, args := [0] } else none

/-- What the loop over the clients leaves of a connection. -/
def HPetConnection.check (conn : HPetConnection) (now : ℕ) : HPetConnection :=
  if conn.due now then { conn with waiting := false, waiter := none } else conn

/-- One turn of the loop of `_main`, up to the message. -/
def Clock.pass (c : Clock) (now : ℕ) : Clock :=
  { c with
    connections := c.connections.mapValues fun _ conn => conn.check now
    replies := c.replies ++ c.connections.entries.filterMap fun e => e.2.answer now
    -- `has_waiter`
    pc := .receive !(c.connections.entries.any fun e => e.2.waiting && !e.2.due now) }

/-- `on_connect` and `init`, for a port that has no handler yet. -/
def Clock.greet (hash : ℕ → ℕ) (c : Clock) (port : ℕ) : Clock :=
  if c.connections.has hash port then c else { c with connections := c.connections.insert hash port {} }

/-- What `do_receive` and `do_receive_async` do with a message. -/
def Clock.receive (hash : ℕ → ℕ) (c : Clock) (msg : IpcMessage) (replyObj : Option ℕ) (now : ℕ) : Clock :=
  let c := { c.greet hash msg.port with pc := .pass }
  if (msg.args 0).data = protSignalDisconnect then { c with connections := c.connections.remove hash msg.port }
  else
    match c.connections.get hash msg.port with
    | none => { c with pc := .stuck }
    | some conn =>
      let called := conn.callReceived msg replyObj now
      let c := { c with
        connections := c.connections.mapValues fun port conn => if port = msg.port then called.conn else conn
        replies := c.replies ++ called.replies }
      match called.ending with
      | .returned => c
      | .failed _ => { c with connections := c.connections.remove hash msg.port }
      | .stuck => { c with pc := .stuck }

/-- A pass at some value of the main counter; a look for a message that finds none (`is_null`); an interrupt, with the
asset that it should have; and a message, which may be a call. -/
inductive Op
  | pass (counter : ℕ)
  | nothing
  | interrupt (asset : Option ℕ)
  | message (msg : IpcMessage) (call : Bool) (counter : ℕ)

def Clock.step (hash : ℕ → ℕ) (tick : ℕ) (c : Clock) : Op → Option Clock
  | .pass counter => if c.pc = .pass then some (c.pass (hpetClockRead tick counter)) else none
  | .nothing => if c.pc = .receive false then some { c with pc := .pass } else none
  | .interrupt asset =>
    if c.pc = .receive true then some { c with pc := if asset.isSome then .pass else .stuck } else none
  | .message msg call counter =>
    if c.pc = .receive true ∨ c.pc = .receive false then
      -- the kernel makes a reply object for each call
      some ({ c with calls := if call then c.calls + 1 else c.calls }.receive hash msg
        (if call then some c.calls else none) (hpetClockRead tick counter))
    else none

/-! ### What a sleep should come to -/

/-- A message of the connection that the sleep does not survive. -/
def Op.displaces (port : ℕ) : Op → Bool
  | .message msg _ _ =>
    msg.port = port && ((msg.args 0).data = protSignalDisconnect || msg.arg 0 ≠ some clockGetSystemTime)
  | _ => false

/-- A sleep of the connection is answered: a pass reads a time from its end on, before it is displaced. -/
def answered (tick port : ℕ) (endTime : ℤ) : List Op → Bool
  | [] => false
  | .pass counter :: ops => endTime ≤ hpetClockRead tick counter || answered tick port endTime ops
  | op :: ops => !op.displaces port && answered tick port endTime ops

/-! ### Who waits -/

section Waits

variable {hash : ℕ → ℕ} {tick : ℕ} {c c' : Clock} {p r now : ℕ} {e : ℤ}

/-- The call that a connection is to answer, and when. -/
def HPetConnection.waits (conn : HPetConnection) : Option (ℕ × ℤ) :=
  if conn.waiting then conn.waiter.map fun r => (r, conn.endTime) else none

/-- The same for a port. -/
def Clock.waits (hash : ℕ → ℕ) (c : Clock) (p : ℕ) : Option (ℕ × ℤ) :=
  (c.connections.get hash p).bind HPetConnection.waits

/-- The map is in order; nobody waits for the answer of another; and who waits is not forgotten in a `do_receive`. -/
structure Inv (hash : ℕ → ℕ) (c : Clock) : Prop where
  ok : c.connections.Ok hash
  count : c.connections.count = c.connections.entries.length
  calls : ∀ {p r e}, c.waits hash p = some (r, e) → r < c.calls
  apart : ∀ {p q r e e'}, c.waits hash p = some (r, e) → c.waits hash q = some (r, e') → p = q
  replies : ∀ x ∈ c.replies, x.replyObj < c.calls
  nobody : c.pc = .receive true → ∀ p, c.waits hash p = none

/-- The replies to a call. -/
def Clock.repliesTo (c : Clock) (r : ℕ) : List Reply := c.replies.filter fun x => x.replyObj = r

theorem inv_start (hash : ℕ → ℕ) : Inv hash {} :=
  ⟨UMap.ok_empty hash, rfl, by simp [Clock.waits, UMap.get, UMap.bucket],
    by simp [Clock.waits, UMap.get, UMap.bucket], by simp, nofun⟩

theorem waits_eq_some {conn : HPetConnection} :
    conn.waits = some (r, e) ↔ conn.waiting = true ∧ conn.waiter = some r ∧ conn.endTime = e := by
  unfold HPetConnection.waits
  split_ifs with h <;> simp [h]

/-- What is left of a connection after a pass. -/
theorem waits_check (conn : HPetConnection) (now : ℕ) :
    (conn.check now).waits = conn.waits.filter fun x => (now : ℤ) < x.2 := by
  unfold HPetConnection.check HPetConnection.due HPetConnection.waits
  cases hb : conn.waiting <;> cases hw : conn.waiter <;> by_cases he : conn.endTime ≤ now <;>
    simp [hb, hw, he, Option.filter, Int.not_lt.mpr, Int.not_le.mp]

/-- What a pass replies to a connection. -/
theorem answer_eq_some {conn : HPetConnection} {x : Reply} :
    conn.answer now = some x ↔ ∃ r e, conn.waits = some (r, e) ∧ e ≤ now ∧ x = { replyObj := r, args := [0] } := by
  unfold HPetConnection.answer HPetConnection.due HPetConnection.waits
  cases conn.waiting <;> cases conn.waiter <;> by_cases he : conn.endTime ≤ now <;> simp [he, eq_comm]

/-! ### A pass -/

theorem waits_pass (c : Clock) (now p : ℕ) :
    (c.pass now).waits hash p = (c.waits hash p).filter fun x => (now : ℤ) < x.2 := by
  unfold Clock.waits
  simp only [Clock.pass, UMap.get_mapValues, Option.bind_map]
  cases c.connections.get hash p with
  | none => rfl
  | some conn => exact waits_check conn now

theorem waits_pass_some (h : (c.pass now).waits hash p = some (r, e)) : c.waits hash p = some (r, e) ∧ now < e := by
  simpa [waits_pass, Option.filter_eq_some_iff] using h

/-- A pass replies to those who wait, and not longer than until then. -/
theorem answer_waits (hok : c.connections.Ok hash) {q : ℕ × HPetConnection} (hq : q ∈ c.connections.entries) {x : Reply}
    (hx : q.2.answer now = some x) : ∃ r e, c.waits hash q.1 = some (r, e) ∧ e ≤ now ∧ x = { replyObj := r, args := [0] } := by
  obtain ⟨r, e, hwaits, hrest⟩ := answer_eq_some.mp hx
  exact ⟨r, e, Option.bind_eq_some_iff.mpr ⟨q.2, (UMap.get_eq_some hok).mpr hq, hwaits⟩, hrest⟩

/-- The entries of a list of which one gives something. -/
theorem filterMap_eq_singleton {α β : Type*} {l : List α} (hnodup : l.Nodup) {a : α} (ha : a ∈ l) {f : α → Option β}
    {b : β} (hf : f a = some b) (hother : ∀ x ∈ l, x ≠ a → f x = none) : l.filterMap f = [b] := by
  obtain ⟨s, t, rfl⟩ := List.append_of_mem ha
  obtain ⟨hs, ht⟩ : a ∉ s ∧ a ∉ t := by
    have h := List.nodup_middle.mp hnodup
    simpa using (List.nodup_cons.mp h).1
  have hnone : ∀ l' ⊆ s ++ a :: t, a ∉ l' → l'.filterMap f = [] := fun l' hl hal =>
    List.filterMap_eq_nil_iff.mpr fun x hx => hother x (hl hx) fun hc => hal (hc ▸ hx)
  rw [List.filterMap_append, List.filterMap_cons, hf, hnone s (by simp) hs, hnone t (by simp) ht]
  rfl

/-- **A pass** does not answer a call whose time it has not come to. -/
theorem repliesTo_pass_early (hok : c.connections.Ok hash) (hearly : ∀ p e, c.waits hash p = some (r, e) → now < e) :
    (c.pass now).repliesTo r = c.repliesTo r := by
  unfold Clock.repliesTo
  simp only [Clock.pass, List.filter_append, List.append_right_eq_self, List.filter_eq_nil_iff]
  intro x hx
  obtain ⟨q, hq, hx⟩ := List.mem_filterMap.mp hx
  obtain ⟨r', e', hwaits, hle, rfl⟩ := answer_waits hok hq hx
  simp only [decide_eq_true_eq]
  rintro rfl
  exact absurd (hearly _ _ hwaits) (by omega)

/-- **A pass** answers a call whose time has come, once. -/
theorem repliesTo_pass_due (h : Inv hash c) (hw : c.waits hash p = some (r, e)) (he : e ≤ now) :
    (c.pass now).repliesTo r = c.repliesTo r ++ [{ replyObj := r, args := [0] }] := by
  obtain ⟨conn, hget, hconn⟩ := Option.bind_eq_some_iff.mp hw
  have hentry := (UMap.get_eq_some h.ok).mp hget
  unfold Clock.repliesTo
  simp only [Clock.pass, List.filter_append, List.filter_filterMap]
  congr 1
  have hanswer : conn.answer now = some { replyObj := r, args := [0] } := answer_eq_some.mpr ⟨r, e, hconn, he, rfl⟩
  refine filterMap_eq_singleton h.ok.keys_nodup.of_map hentry (by simp [hanswer, Option.filter]) fun q hq hne => ?_
  rw [Option.filter_eq_none_iff]
  intro x hx
  obtain ⟨r', e', hwaits, -, rfl⟩ := answer_waits h.ok hq hx
  simp only [decide_eq_true_eq]
  rintro rfl
  have hport : q.1 = p := h.apart hwaits hw
  have hget' := (UMap.get_eq_some h.ok).mpr hq
  rw [hport, hget] at hget'
  exact hne (Prod.ext hport (Option.some.inj hget').symm)

theorem Inv.pass (h : Inv hash c) (now : ℕ) : Inv hash (c.pass now) where
  ok := by
    simp only [Clock.pass]
    exact UMap.ok_mapValues h.ok
  count := by simp [Clock.pass, UMap.entries_mapValues, h.count]
  calls hw := h.calls (waits_pass_some hw).1
  apart hw hw' := h.apart (waits_pass_some hw).1 (waits_pass_some hw').1
  replies x hx := by
    rcases List.mem_append.mp hx with hx | hx
    · exact h.replies x hx
    · obtain ⟨q, hq, hx⟩ := List.mem_filterMap.mp hx
      obtain ⟨r, e, hwaits, -, rfl⟩ := answer_waits h.ok hq hx
      exact h.calls hwaits
  nobody hpc p := by
    -- `has_waiter` is false, so everyone who waited was due
    rw [waits_pass, Option.filter_eq_none_iff]
    rintro ⟨r, e⟩ hw
    obtain ⟨conn, hget, hconn⟩ := Option.bind_eq_some_iff.mp hw
    have hentry := (UMap.get_eq_some h.ok).mp hget
    obtain ⟨hwaiting, -, rfl⟩ := waits_eq_some.mp hconn
    have hdue := hpc
    simp only [Clock.pass, Pc.receive.injEq, Bool.not_eq_true', List.any_eq_false] at hdue
    simpa [HPetConnection.due, hwaiting] using hdue _ hentry

/-! ### A message -/

variable {conn : HPetConnection} {msg : IpcMessage} {replyObj : Option ℕ} {called : Called}

/-- What `call_received` leaves: it replies to the call at most; what the connection waits for then is what it
waited for, or the call. -/
theorem callReceived_spec (h : conn.callReceived msg replyObj now = called) :
    (∀ x ∈ called.replies, replyObj = some x.replyObj) ∧
      (msg.arg 0 = some clockGetSystemTime → called.conn = conn ∧ called.ending = .returned) ∧
      (called.ending = .stuck → called.conn = conn) ∧
      (msg.arg 0 ≠ some clockGetSystemTime → called.ending = .returned →
        ∀ r e, called.conn.waits = some (r, e) → replyObj = some r) := by
  subst h
  unfold HPetConnection.callReceived
  cases msg.arg 0 with
  | none => simp
  | some op =>
    by_cases htime : op = clockGetSystemTime
    · cases replyObj <;> simp [htime]
    · by_cases hsleep : op = clockSleepMs
      · have hne : clockSleepMs ≠ clockGetSystemTime := by decide
        cases replyObj <;> cases msg.arg 1 <;> simp [hsleep, hne, waits_eq_some]
      · simp [htime, hsleep]

/-- A sleep. -/
theorem callReceived_sleep {ms : ℕ} (hsleep : msg.arg 0 = some clockSleepMs) (hms : msg.arg 1 = some ms) :
    (conn.callReceived msg (some r) now).ending = .returned ∧ (conn.callReceived msg (some r) now).replies = [] ∧
      (conn.callReceived msg (some r) now).conn.waits = some (r, Lib.long (now + Lib.long ms)) := by
  have hne : clockSleepMs ≠ clockGetSystemTime := by decide
  simp [HPetConnection.callReceived, hsleep, hms, hne, waits_eq_some]

/-- A port that gets a handler. -/
theorem greet_spec (hok : c.connections.Ok hash) (hcount : c.connections.count = c.connections.entries.length) (q : ℕ) :
    (c.greet hash q).connections.Ok hash ∧
      (c.greet hash q).connections.count = (c.greet hash q).connections.entries.length ∧
      (∀ p, (c.greet hash q).waits hash p = c.waits hash p) ∧
      ∃ conn, (c.greet hash q).connections.get hash q = some conn := by
  unfold Clock.greet
  split_ifs with hhas
  · exact ⟨hok, hcount, fun _ => rfl, (UMap.has_eq_true hok).mp hhas⟩
  · have hnone := (UMap.has_eq_false hok).mp (Bool.eq_false_iff.mpr hhas)
    obtain ⟨-, hperm⟩ := UMap.insert_spec hok.placed (k := q) ({} : HPetConnection)
    have hget : ∀ p, (c.connections.insert hash q {}).get hash p = if p = q then some {} else c.connections.get hash p :=
      fun p => UMap.get_insert hok hnone {}
    refine ⟨UMap.ok_insert hok hnone _, ?_, fun p => ?_, {}, by simp [hget]⟩
    · rw [UMap.count_insert, hperm.length_eq, List.length_cons, hcount]
    · simp only [Clock.waits, hget]
      split_ifs with hp
      · rw [hp, hnone]
        rfl
      · rfl

/-- What a message leaves: `w` is what the connection of its port waits for then. -/
structure Received (hash : ℕ → ℕ) (c : Clock) (msg : IpcMessage) (replyObj : Option ℕ) (now : ℕ) (c' : Clock)
    (w : Option (ℕ × ℤ)) : Prop where
  ok : c'.connections.Ok hash
  count : c'.connections.count = c'.connections.entries.length
  calls : c'.calls = c.calls
  pc : c'.pc ≠ .receive true
  replies : ∃ l, c'.replies = c.replies ++ l ∧ ∀ x ∈ l, replyObj = some x.replyObj
  waits : ∀ p, c'.waits hash p = if p = msg.port then w else c.waits hash p
  origin : ∀ r e, w = some (r, e) → c.waits hash msg.port = some (r, e) ∨ replyObj = some r
  kept : (Op.message msg true 0).displaces msg.port = false → w = c.waits hash msg.port
  displaced : (Op.message msg true 0).displaces msg.port = true → c'.pc = .stuck ∨ ∀ r e, w = some (r, e) → replyObj = some r
  sleeps : ∀ {r ms}, msg.arg 0 = some clockSleepMs → msg.arg 1 = some ms → replyObj = some r →
    w = some (r, Lib.long (now + Lib.long ms)) ∧ c'.replies = c.replies

theorem signal_of_arg {op : ℕ} (hop : op < protSignalDisconnect) (h : msg.arg 0 = some op) :
    (msg.args 0).data ≠ protSignalDisconnect := by
  unfold IpcMessage.arg at h
  split_ifs at h with hasset
  have hdata : (msg.args 0).data = op := by simpa using h
  omega

/-- **A message** changes what the connection of its port waits for. -/
theorem receive_spec (hok : c.connections.Ok hash) (hcount : c.connections.count = c.connections.entries.length)
    (msg : IpcMessage) (replyObj : Option ℕ) (now : ℕ) :
    ∃ w, Received hash c msg replyObj now (c.receive hash msg replyObj now) w := by
  obtain ⟨hok₁, hcount₁, hwaits, conn, hget⟩ := greet_spec hok hcount msg.port
  have hconn : conn.waits = c.waits hash msg.port := by rw [← hwaits, Clock.waits, hget]; rfl
  have hgreet : (c.greet hash msg.port).calls = c.calls ∧ (c.greet hash msg.port).replies = c.replies := by
    unfold Clock.greet
    split_ifs <;> exact ⟨rfl, rfl⟩
  have hdisplaces : (Op.message msg true 0).displaces msg.port = false ↔
      (msg.args 0).data ≠ protSignalDisconnect ∧ msg.arg 0 = some clockGetSystemTime := by
    simp [Op.displaces]
  unfold Clock.receive
  generalize c.greet hash msg.port = c₁ at *
  dsimp only
  split_ifs with hsignal
  · obtain ⟨hok₂, hcount₂, hremoved⟩ := UMap.remove_spec hok₁ hcount₁ msg.port
    refine ⟨none, hok₂, hcount₂, hgreet.1, by simp, ⟨[], by simp [hgreet.2], by simp⟩, fun p => ?_, by simp, ?_, ?_, ?_⟩
    · rw [← hwaits, Clock.waits, hremoved]
      split_ifs <;> rfl
    · simp [hdisplaces, hsignal]
    · exact fun _ => .inr (by simp)
    · exact fun hsleep => absurd hsignal (signal_of_arg (by decide) hsleep)
  · rw [hget]
    dsimp only
    generalize hcalled : conn.callReceived msg replyObj now = called
    obtain ⟨hreplies, htime, hstuck, hother⟩ := callReceived_spec hcalled
    have hsleeps : ∀ {r ms}, msg.arg 0 = some clockSleepMs → msg.arg 1 = some ms → replyObj = some r →
        called.ending = .returned ∧ called.replies = [] ∧ called.conn.waits = some (r, Lib.long (now + Lib.long ms)) := by
      rintro r ms hsleep hms rfl
      exact hcalled ▸ callReceived_sleep hsleep hms
    have hkept : (Op.message msg true 0).displaces msg.port = false → called.conn = conn ∧ called.ending = .returned :=
      fun h => htime (hdisplaces.mp h).2
    have hlost : (Op.message msg true 0).displaces msg.port = true → called.ending = .returned →
        ∀ r e, called.conn.waits = some (r, e) → replyObj = some r :=
      fun h => hother fun hc => by simp [hdisplaces.mpr ⟨hsignal, hc⟩] at h
    have hsame : called.conn = conn → ∀ r e, called.conn.waits = some (r, e) →
        c.waits hash msg.port = some (r, e) ∨ replyObj = some r := fun h r e hw => .inl (by rw [← hconn, ← h, hw])
    -- the handler's fields are changed first, and it may be removed then
    set m := c₁.connections.mapValues fun port conn => if port = msg.port then called.conn else conn with hm
    have hok₂ : m.Ok hash := UMap.ok_mapValues hok₁
    have hcount₂ : m.count = m.entries.length := by simp [hm, UMap.entries_mapValues, hcount₁]
    have hset : ∀ p, (m.get hash p).bind HPetConnection.waits =
        if p = msg.port then called.conn.waits else c.waits hash p := by
      intro p
      rw [hm, UMap.get_mapValues, ← hwaits]
      split_ifs with hp
      · simp [hp, hget]
      · simp [Clock.waits]
    have hasleep : ∀ {r ms}, msg.arg 0 = some clockSleepMs → msg.arg 1 = some ms → replyObj = some r →
        called.conn.waits = some (r, Lib.long (now + Lib.long ms)) ∧ c₁.replies ++ called.replies = c.replies := by
      intro r ms h₀ h₁ h₂
      obtain ⟨-, hnil, hw⟩ := hsleeps h₀ h₁ h₂
      exact ⟨hw, by rw [hnil, List.append_nil, hgreet.2]⟩
    have hlist : ∃ l, c₁.replies ++ called.replies = c.replies ++ l ∧ ∀ x ∈ l, replyObj = some x.replyObj :=
      ⟨called.replies, by rw [hgreet.2], hreplies⟩
    cases hending : called.ending with
    | returned =>
      refine ⟨called.conn.waits, hok₂, hcount₂, hgreet.1, by simp, hlist, hset, fun r e hw => ?_, fun h => ?_,
        fun h => .inr (hlost h hending), hasleep⟩
      · cases hd : (Op.message msg true 0).displaces msg.port with
        | false => exact hsame (hkept hd).1 r e hw
        | true => exact .inr (hlost hd hending r e hw)
      · rw [(hkept h).1, hconn]
    | failed e =>
      obtain ⟨hok₃, hcount₃, hremoved⟩ := UMap.remove_spec hok₂ hcount₂ msg.port
      refine ⟨none, hok₃, hcount₃, hgreet.1, by simp, hlist, fun p => ?_, by simp, fun h => ?_, fun _ => .inr (by simp), ?_⟩
      · rw [Clock.waits, hremoved]
        split_ifs with hp
        · rfl
        · rw [hset, if_neg hp]
      · simp [(hkept h).2] at hending
      · exact fun h₀ h₁ h₂ => by simp [(hsleeps h₀ h₁ h₂).1] at hending
    | stuck =>
      refine ⟨called.conn.waits, hok₂, hcount₂, hgreet.1, by simp, hlist, hset, hsame (hstuck hending), fun h => ?_,
        fun _ => .inl rfl, hasleep⟩
      rw [(hkept h).1, hconn]

/-! ### Runs -/

/-- A message that the server takes. -/
theorem received_step (h : Inv hash c) {call : Bool} {counter : ℕ}
    (hs : c.step hash tick (.message msg call counter) = some c') :
    ∃ w, Received hash { c with calls := if call then c.calls + 1 else c.calls } msg (if call then some c.calls else none)
      (hpetClockRead tick counter) c' w := by
  obtain ⟨-, rfl⟩ := by simpa only [Clock.step, Option.ite_none_right_eq_some, Option.some_inj] using hs
  exact receive_spec (c := { c with calls := if call then c.calls + 1 else c.calls }) h.ok h.count msg _ _

theorem calls_step (h : Inv hash c) {o : Op} (hs : c.step hash tick o = some c') : c.calls ≤ c'.calls := by
  cases o with
  | message msg call counter =>
    obtain ⟨w, hr⟩ := received_step h hs
    rw [hr.calls]
    dsimp only
    split_ifs <;> omega
  | _ =>
    obtain ⟨-, rfl⟩ := by simpa only [Clock.step, Option.ite_none_right_eq_some, Option.some_inj] using hs
    exact Nat.le_refl _

/-- **One step** keeps the invariant. -/
theorem inv_step (h : Inv hash c) {o : Op} (hs : c.step hash tick o = some c') : Inv hash c' := by
  cases o with
  | pass counter =>
    obtain ⟨-, rfl⟩ := by simpa only [Clock.step, Option.ite_none_right_eq_some, Option.some_inj] using hs
    exact h.pass _
  | nothing =>
    obtain ⟨-, rfl⟩ := by simpa only [Clock.step, Option.ite_none_right_eq_some, Option.some_inj] using hs
    exact ⟨h.ok, h.count, h.calls, h.apart, h.replies, nofun⟩
  | interrupt asset =>
    obtain ⟨-, rfl⟩ := by simpa only [Clock.step, Option.ite_none_right_eq_some, Option.some_inj] using hs
    exact ⟨h.ok, h.count, h.calls, h.apart, h.replies, by cases asset <;> nofun⟩
  | message msg call counter =>
    obtain ⟨w, hr⟩ := received_step h hs
    have hcalls := calls_step h hs
    have hnew : ∀ r, (if call then some c.calls else none) = some r → r = c.calls ∧ r < c'.calls := by
      intro r hr'
      rw [hr.calls]
      cases call <;> simp_all
    have hwaits : ∀ p r e, c'.waits hash p = some (r, e) →
        c.waits hash p = some (r, e) ∨ p = msg.port ∧ r = c.calls ∧ r < c'.calls := by
      intro p r e hw
      rw [hr.waits] at hw
      by_cases hp : p = msg.port
      · rw [if_pos hp] at hw
        rcases hr.origin r e hw with hold | hcall
        · exact .inl (hp ▸ hold)
        · exact .inr ⟨hp, hnew r hcall⟩
      · rw [if_neg hp] at hw
        exact .inl hw
    refine ⟨hr.ok, hr.count, fun hw => ?_, fun {p q r e e'} hp hq => ?_, fun x hx => ?_, fun hpc => absurd hpc hr.pc⟩
    · rcases hwaits _ _ _ hw with hold | ⟨-, -, hlt⟩
      · exact Nat.lt_of_lt_of_le (h.calls hold) hcalls
      · exact hlt
    · rcases hwaits _ _ _ hp with hp | ⟨hp, hpr, -⟩ <;> rcases hwaits _ _ _ hq with hq | ⟨hq, hqr, -⟩
      · exact h.apart hp hq
      · exact absurd (h.calls hp) (by omega)
      · exact absurd (h.calls hq) (by omega)
      · rw [hp, hq]
    · obtain ⟨l, hl, hnewl⟩ := hr.replies
      rw [hl] at hx
      rcases List.mem_append.mp hx with hx | hx
      · exact Nat.lt_of_lt_of_le (h.replies x hx) hcalls
      · exact (hnew _ (hnewl x hx)).2

/-- Another call than the message is not replied to. -/
theorem received_other {call : Bool} {w : Option (ℕ × ℤ)} (hlt : r < c.calls)
    (hr : Received hash { c with calls := if call then c.calls + 1 else c.calls } msg (if call then some c.calls else none)
      now c' w) :
    c'.repliesTo r = c.repliesTo r ∧ (if call then some c.calls else none) ≠ some r := by
  have hnew : (if call then some c.calls else none) ≠ some r := by
    cases call <;> simp
    omega
  obtain ⟨l, hl, hnewl⟩ := hr.replies
  refine ⟨?_, hnew⟩
  unfold Clock.repliesTo
  rw [hl, List.filter_append, List.append_right_eq_self, List.filter_eq_nil_iff]
  intro x hx
  simp only [decide_eq_true_eq]
  rintro rfl
  exact hnew (hnewl x hx)

/-- What becomes of a call that a connection waits to answer, in one step. -/
theorem sleeping_step (h : Inv hash c) (hw : c.waits hash p = some (r, e)) {o : Op}
    (hs : c.step hash tick o = some c') :
    (∃ counter, o = .pass counter ∧ e ≤ hpetClockRead tick counter ∧
        c'.repliesTo r = c.repliesTo r ++ [{ replyObj := r, args := [0] }] ∧ ∀ q e', c'.waits hash q ≠ some (r, e')) ∨
      o.displaces p = true ∧ c'.repliesTo r = c.repliesTo r ∧
        (c'.pc = .stuck ∨ ∀ q e', c'.waits hash q ≠ some (r, e')) ∨
      (∀ counter, o = .pass counter → (hpetClockRead tick counter : ℤ) < e) ∧ o.displaces p = false ∧
        c'.repliesTo r = c.repliesTo r ∧ c'.waits hash p = some (r, e) := by
  cases o with
  | pass counter =>
    obtain ⟨-, rfl⟩ := by simpa only [Clock.step, Option.ite_none_right_eq_some, Option.some_inj] using hs
    by_cases he : e ≤ hpetClockRead tick counter
    · refine .inl ⟨counter, rfl, he, repliesTo_pass_due h hw he, fun q e' hq => ?_⟩
      obtain ⟨hq, hlt⟩ := waits_pass_some hq
      rw [h.apart hq hw, hw] at hq
      cases hq
      omega
    · have hearly : ∀ q e', c.waits hash q = some (r, e') → hpetClockRead tick counter < e' := by
        intro q e' hq
        rw [h.apart hq hw, hw] at hq
        cases hq
        omega
      refine .inr (.inr ⟨?_, rfl, repliesTo_pass_early h.ok hearly, ?_⟩)
      · rintro _ ⟨⟩
        omega
      · rw [waits_pass, hw]
        simpa [Option.filter] using he
  | nothing =>
    obtain ⟨-, rfl⟩ := by simpa only [Clock.step, Option.ite_none_right_eq_some, Option.some_inj] using hs
    exact .inr (.inr ⟨nofun, rfl, rfl, hw⟩)
  | interrupt asset =>
    obtain ⟨-, rfl⟩ := by simpa only [Clock.step, Option.ite_none_right_eq_some, Option.some_inj] using hs
    exact .inr (.inr ⟨nofun, rfl, rfl, hw⟩)
  | message msg call counter =>
    obtain ⟨w, hr⟩ := received_step h hs
    obtain ⟨hreplies, hnew⟩ := received_other (h.calls hw) hr
    by_cases hp : p = msg.port
    · cases hd : (Op.message msg call counter).displaces p with
      | true =>
        refine .inr (.inl ⟨rfl, hreplies, (hr.displaced (hp ▸ hd)).imp_right fun hw' q e' hq => ?_⟩)
        rw [hr.waits] at hq
        by_cases hq' : q = msg.port
        · rw [if_pos hq'] at hq
          exact hnew (hw' _ _ hq)
        · rw [if_neg hq'] at hq
          exact hq' ((h.apart hq hw).trans hp)
      | false =>
        refine .inr (.inr ⟨nofun, rfl, hreplies, ?_⟩)
        rw [hr.waits, if_pos hp, hr.kept (hp ▸ hd), ← hp]
        exact hw
    · refine .inr (.inr ⟨nofun, ?_, hreplies, ?_⟩)
      · simp [Op.displaces, Ne.symm hp]
      · rw [hr.waits, if_neg hp]
        exact hw

/-- A call that nobody waits to answer, or a server that is stuck. -/
def Forgotten (hash : ℕ → ℕ) (c : Clock) (r : ℕ) : Prop := c.pc = .stuck ∨ ∀ q e, c.waits hash q ≠ some (r, e)

/-- A call that nobody waits to answer gets no more replies. -/
theorem forgotten_step (h : Inv hash c) (hlt : r < c.calls) (hf : Forgotten hash c r) {o : Op}
    (hs : c.step hash tick o = some c') : r < c'.calls ∧ c'.repliesTo r = c.repliesTo r ∧ Forgotten hash c' r := by
  rcases hf with hpc | hnone
  · cases o <;> simp [Clock.step, hpc] at hs
  cases o with
  | pass counter =>
    obtain ⟨-, rfl⟩ := by simpa only [Clock.step, Option.ite_none_right_eq_some, Option.some_inj] using hs
    exact ⟨hlt, repliesTo_pass_early h.ok fun q e hq => absurd hq (hnone q e),
      .inr fun q e hq => hnone q e (waits_pass_some hq).1⟩
  | nothing =>
    obtain ⟨-, rfl⟩ := by simpa only [Clock.step, Option.ite_none_right_eq_some, Option.some_inj] using hs
    exact ⟨hlt, rfl, .inr hnone⟩
  | interrupt asset =>
    obtain ⟨-, rfl⟩ := by simpa only [Clock.step, Option.ite_none_right_eq_some, Option.some_inj] using hs
    exact ⟨hlt, rfl, .inr hnone⟩
  | message msg call counter =>
    obtain ⟨w, hr⟩ := received_step h hs
    obtain ⟨hreplies, hnew⟩ := received_other hlt hr
    refine ⟨Nat.lt_of_lt_of_le hlt (calls_step h hs), hreplies, .inr fun q e hq => ?_⟩
    rw [hr.waits] at hq
    by_cases hq' : q = msg.port
    · rw [if_pos hq'] at hq
      exact (hr.origin r e hq).elim (hnone _ _) hnew
    · rw [if_neg hq'] at hq
      exact hnone q e hq

theorem forgotten_run : ∀ (ops : List Op) {c c' : Clock}, Inv hash c → r < c.calls → Forgotten hash c r →
    Lib.run (Clock.step hash tick) ops c = some c' → c'.repliesTo r = c.repliesTo r
  | [], c, c', _, _, _, hs => by
    rw [Lib.run_nil, Option.some_inj] at hs
    rw [hs]
  | o :: ops, c, c', h, hlt, hf, hs => by
    obtain ⟨c₁, h₁, hs⟩ := Lib.run_cons_some hs
    obtain ⟨hlt₁, hreplies, hf₁⟩ := forgotten_step h hlt hf h₁
    rw [forgotten_run ops (inv_step h h₁) hlt₁ hf₁ hs, hreplies]

/-- **A call that waits**, up to the end of a run. -/
theorem sleeping_run : ∀ (ops : List Op) {c c' : Clock}, Inv hash c → c.waits hash p = some (r, e) →
    Lib.run (Clock.step hash tick) ops c = some c' →
      c'.repliesTo r = c.repliesTo r ++ (if answered tick p e ops then [{ replyObj := r, args := [0] }] else []) ∧
        (answered tick p e ops = false → (∀ o ∈ ops, o.displaces p = false) → c'.waits hash p = some (r, e))
  | [], c, c', _, hw, hs => by
    rw [Lib.run_nil, Option.some_inj] at hs
    subst hs
    exact ⟨by simp [answered], fun _ _ => hw⟩
  | o :: ops, c, c', h, hw, hs => by
    obtain ⟨c₁, h₁, hrun⟩ := Lib.run_cons_some hs
    have hlt : r < c₁.calls := Nat.lt_of_lt_of_le (h.calls hw) (calls_step h h₁)
    rcases sleeping_step h hw h₁ with ⟨counter, rfl, he, hreplies, hnone⟩ | ⟨hd, hreplies, hf⟩ | ⟨hearly, hd, hreplies, hw₁⟩
    · have hanswered : answered tick p e (.pass counter :: ops) = true := by simp [answered, he]
      rw [hanswered, forgotten_run ops (inv_step h h₁) hlt (.inr hnone) hrun, hreplies]
      exact ⟨rfl, nofun⟩
    · have hanswered : answered tick p e (o :: ops) = false := by
        cases o with
        | message msg call counter => simp [answered, hd]
        | _ => simp [Op.displaces] at hd
      rw [hanswered, forgotten_run ops (inv_step h h₁) hlt hf hrun, hreplies]
      exact ⟨by simp, fun _ hall => by simp [hd] at hall⟩
    · obtain ⟨hrest, hwaits⟩ := sleeping_run ops (inv_step h h₁) hw₁ hrun
      have hanswered : answered tick p e (o :: ops) = answered tick p e ops := by
        cases o with
        | pass counter => simpa [answered] using fun hc => absurd (hearly counter rfl) (by omega)
        | nothing => simp [answered, Op.displaces]
        | interrupt asset => simp [answered, Op.displaces]
        | message msg call counter => simp [answered, hd]
      rw [hanswered, hrest, hreplies]
      exact ⟨rfl, fun hno hall => hwaits hno fun o ho => hall o (List.mem_cons_of_mem _ ho)⟩

/-! ### Sleeps -/

/-- A call of `CLOCK_SLEEP_MS`, in a server that has run so far. -/
structure Sleep (hash : ℕ → ℕ) (tick : ℕ) (c : Clock) (msg : IpcMessage) (counter ms : ℕ) (c' : Clock) : Prop where
  reached : ∃ ops, Lib.run (Clock.step hash tick) ops {} = some c
  command : msg.arg 0 = some clockSleepMs
  argument : msg.arg 1 = some ms
  taken : c.step hash tick (.message msg true counter) = some c'

/-- `end_time` of a sleep. -/
def endOf (tick counter ms : ℕ) : ℤ := Lib.long (hpetClockRead tick counter + Lib.long ms)

variable {counter ms : ℕ}

/-- The connection waits to answer the call, which has no replies yet. -/
theorem Sleep.waits (h : Sleep hash tick c msg counter ms c') :
    Inv hash c' ∧ c'.repliesTo c.calls = [] ∧
      c'.waits hash msg.port = some (c.calls, endOf tick counter ms) := by
  obtain ⟨ops, hops⟩ := h.reached
  have hinv : Inv hash c := Lib.run_invariant (fun _ _ _ h hs => inv_step h hs) (inv_start hash) hops
  obtain ⟨w, hr⟩ := received_step hinv h.taken
  obtain ⟨hw, hreplies⟩ := hr.sleeps h.command h.argument rfl
  refine ⟨inv_step hinv h.taken, ?_, ?_⟩
  · unfold Clock.repliesTo
    rw [hreplies, List.filter_eq_nil_iff]
    intro x hx
    simpa using Nat.ne_of_lt (hinv.replies x hx)
  · rw [hr.waits, if_pos rfl, hw]
    rfl

theorem sleep_run (h : Sleep hash tick c msg counter ms c') {c₂ : Clock} (ops : List Op)
    (hs : Lib.run (Clock.step hash tick) ops c' = some c₂) :
    c₂.repliesTo c.calls =
      if answered tick msg.port (endOf tick counter ms) ops then [{ replyObj := c.calls, args := [0] }] else [] := by
  obtain ⟨hinv, hnone, hw⟩ := h.waits
  rw [(sleeping_run ops hinv hw hs).1, hnone, List.nil_append]

/-- A sleep of five milliseconds. -/
def sleepFive : IpcMessage where
  args := fun id => { data := if id = 0 then clockSleepMs else 5 }
  port := 16

/-- A server at time zero that nobody waits for, and the one that has taken the sleep. -/
def idle : Clock := ({} : Clock).pass 0

def asleep : Clock := { idle with calls := 1 }.receive (fun port => port) sleepFive (some 0) 0

theorem sleep_asleep : Sleep (fun port => port) 100000000 idle sleepFive 0 5 asleep :=
  ⟨⟨[.pass 0], rfl⟩, rfl, rfl, rfl⟩

/-- A sleep that is answered has an end that the clock gets to. -/
theorem exists_pass_of_answered : ∀ {ops : List Op}, answered tick p e ops = true →
    ∃ counter, .pass counter ∈ ops ∧ e ≤ hpetClockRead tick counter
  | .pass counter :: ops, h => by
    rcases Bool.or_eq_true_iff.mp h with he | hrest
    · exact ⟨counter, List.mem_cons_self, by simpa using he⟩
    · obtain ⟨counter', hmem, he⟩ := exists_pass_of_answered hrest
      exact ⟨counter', List.mem_cons_of_mem _ hmem, he⟩
  | .nothing :: ops, h | .interrupt _ :: ops, h | .message _ _ _ :: ops, h => by
    obtain ⟨counter', hmem, he⟩ := exists_pass_of_answered (Bool.and_eq_true_iff.mp h).2
    exact ⟨counter', List.mem_cons_of_mem _ hmem, he⟩

/-- The clock starts again after this many milliseconds. -/
theorem hpetClockRead_le (tick counter : ℕ) : hpetClockRead tick counter ≤ (2 ^ 64 - 1) / 10 ^ 12 := by
  unfold hpetClockRead
  exact Nat.div_le_div_right (by omega)

theorem endOf_eq (h : hpetClockRead tick counter + ms < 2 ^ 63) :
    endOf tick counter ms = hpetClockRead tick counter + ms := by
  unfold endOf
  rw [Lib.long_eq (x := ms) (by omega) (by omega), Lib.long_eq (by omega) (by omega)]

/-- **How long a sleep lasts**: more than the milliseconds less one, in femtoseconds
of the counter, as long as these fit into 64 bits; and a sleep that would end
when they do not is never answered. -/
theorem sleep_lasts (hash : ℕ → ℕ) (tick : ℕ) {c c₁ c₂ : Clock} {msg : IpcMessage} {counter ms : ℕ}
    (hsleep : Sleep hash tick c msg counter ms c₁) (hms : hpetClockRead tick counter + ms < 2 ^ 63) (ops : List Op)
    (hs : Lib.run (Clock.step hash tick) ops c₁ = some c₂) :
    (c₂.repliesTo c.calls ≠ [] → ∃ counter', .pass counter' ∈ ops ∧
      (counter * tick < 2 ^ 64 → counter' * tick < 2 ^ 64 →
        counter * tick + ms * 10 ^ 12 < counter' * tick + 10 ^ 12)) ∧
      ((2 ^ 64 - 1) / 10 ^ 12 < hpetClockRead tick counter + ms → c₂.repliesTo c.calls = []) := by
  have hreplies := sleep_run hsleep ops hs
  have hanswered : c₂.repliesTo c.calls ≠ [] →
      ∃ counter', .pass counter' ∈ ops ∧ hpetClockRead tick counter + ms ≤ hpetClockRead tick counter' := by
    intro hne
    rw [hreplies] at hne
    obtain ⟨counter', hmem, hle⟩ := exists_pass_of_answered (by simpa using hne)
    rw [endOf_eq hms] at hle
    exact ⟨counter', hmem, by omega⟩
  refine ⟨fun hne => ?_, fun hover => ?_⟩
  · obtain ⟨counter', hmem, hle⟩ := hanswered hne
    refine ⟨counter', hmem, fun hfits hfits' => ?_⟩
    unfold hpetClockRead at hle
    rw [Nat.mod_eq_of_lt hfits, Nat.mod_eq_of_lt hfits'] at hle
    omega
  · by_contra hne
    obtain ⟨counter', -, hle⟩ := hanswered hne
    have := hpetClockRead_le tick counter'
    omega

theorem sleep_lasts_five : ∃ c₂, Lib.run (Clock.step (fun port => port) 100000000) [.pass 60000] asleep = some c₂ ∧
    (c₂.repliesTo idle.calls ≠ [] → ∃ counter', .pass counter' ∈ [Op.pass 60000] ∧
      (0 * 100000000 < 2 ^ 64 → counter' * 100000000 < 2 ^ 64 →
        0 * 100000000 + 5 * 10 ^ 12 < counter' * 100000000 + 10 ^ 12)) :=
  ⟨_, rfl, (sleep_lasts _ _ sleep_asleep (by decide) [.pass 60000] rfl).1⟩

end Waits

end ClockServer
end WingOS
