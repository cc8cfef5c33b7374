/-
# The human-interface server

The loop of `app/udev/ps2/main.cpp`: it reads the bytes of the mouse, and sends
the events they give to the clients that listen to the mouse; then it does the
same for the keyboard; then it waits for a message or an interrupt
(`do_receive`). Each client has a ring of its own (`prot::Duplex`), from which it
takes events as it likes (`HIEventQueue::update_event`), and on a full ring
`produce` spins until the client has taken one.

A step is a byte that comes in, one turn of the server, or one event that a
client takes. Whatever the order of the steps, a client has taken, finds in its
ring or is about to be sent the events of its types, each once and in the order
of the bytes, from the bytes that were read since it began to listen
(`client_hears`).

Key definitions: `Client`, `Server`, `Server.turn`, `Server.step`,
`Server.pending`, `Heard`.
Key theorems: `heard_turn`, `heard_step`, `client_hears`.
-/
import WingOS.Lib.Run
import WingOS.PCRing
import WingOS.Ps2

namespace WingOS
namespace Ps2

open Function (update)

/-- What `Duplex::create` makes of a page: the ring's header has 40 bytes, an event 16. -/
def ringCapacity : ℕ := (4096 - 40) / 16

/-- `Ps2Connection`, with what its client has taken from the ring, and how many events there had been when
it began to listen. -/
structure Client where
  eventTypes : BitVec 32 := 0
  ring : Option (PCRing HIEvent) := none
  taken : List (Option HIEvent) := []
  skipped : ℕ := 0

/-- `ps->event_types & event.type`. -/
def Client.listensTo (c : Client) (e : HIEvent) : Bool := c.eventTypes &&& e.type ≠ 0

inductive Device
  | mouse
  | keyboard
  deriving DecidableEq

/-- Where `main` stands. -/
inductive Pc
  /-- `handle_event` or `packet_handle`, before a look at the status -/
  | handle (device : Device) (acquired : Bool)
  /-- before `poll_event` -/
  | poll (device : Device)
  /-- the event goes to the clients that are left -/
  | send (device : Device) (event : HIEvent) (left : List ℕ)
  /-- `do_receive` -/
  | receive

/-- The server, the bytes that the controller has for it, and those that it has read. -/
structure Server where
  input : List (BitVec 8 ⊕ BitVec 8) := []
  mouse : Mouse
  keyboard : Ps2Keyboard := {}
  pc : Pc := .handle .mouse false
  connections : List ℕ := []
  client : ℕ → Client := fun _ => {}
  bytes : List (BitVec 8 ⊕ BitVec 8) := []

/-- What wakes `do_receive`. -/
inductive Message
  | interrupt
  | connect (k : ℕ)
  | startListen (k : ℕ) (eventTypes : BitVec 32)
  | disconnect (k : ℕ)

inductive Op
  | arrive (packet : BitVec 8 ⊕ BitVec 8)
  | turn
  | received (message : Message)
  | tryConsume (k : ℕ)

namespace Server

def PS2_OUTPUT_STATUS_FULL : BitVec 8 := 1#8 <<< 0

/-- What the controller says: whether it has a byte, and whether that is one of the mouse. -/
def status (s : Server) : BitVec 8 :=
  match s.input with
  | [] => 0
  | .inl _ :: _ => PS2_OUTPUT_STATUS_FULL ||| 0x20
  | .inr _ :: _ => PS2_OUTPUT_STATUS_FULL

/-- The status says that there is a byte of the device. -/
def ready (s : Server) : Device → Bool
  | .mouse => s.status &&& PS2_OUTPUT_STATUS_FULL ≠ 0 ∧ s.status &&& 0x20 ≠ 0
  | .keyboard => s.status &&& PS2_OUTPUT_STATUS_FULL ≠ 0 ∧ ¬ s.status &&& 0x20 ≠ 0

/-- A byte is read, and handled by the device's decoder. -/
def readPacket (s : Server) (device : Device) : Server :=
  match s.input with
  | [] => s
  | packet :: input =>
    let s := { s with input, bytes := s.bytes ++ [packet] }
    let byte := packet.elim id id
    match device with
    | .mouse => { s with mouse := s.mouse.handlePacket byte }
    | .keyboard => { s with keyboard := s.keyboard.handlePacket byte }

/-- After the mouse comes the keyboard, and then the wait. -/
def next : Device → Pc
  | .mouse => .handle .keyboard false
  | .keyboard => .receive

/-- `poll_event` of the device. -/
def pollEvent (s : Server) : Device → Option (HIEvent × Server)
  | .mouse =>
    match s.mouse.events with
    | [] => none
    | e :: events => some (e.toHI, { s with mouse := { s.mouse with events } })
  | .keyboard =>
    match s.keyboard.events with
    | [] => none
    | e :: events => some (e.toHI, { s with keyboard := { s.keyboard with events } })

/-- One turn of the server: none while it waits, or when it follows the null pointer of a ring. -/
def turn (s : Server) : Option Server :=
  match s.pc with
  | .handle device acquired =>
    if s.ready device then some { s.readPacket device with pc := .handle device true }
    else some { s with pc := if acquired then .poll device else next device }
  | .poll device =>
    match s.pollEvent device with
    | none => some { s with pc := next device }
    | some (event, s) => some { s with pc := .send device event s.connections }
  | .send device _ [] => some { s with pc := .poll device }
  | .send device event (k :: left) =>
    if (s.client k).listensTo event then
      match (s.client k).ring with
      | none => none
      | some ring =>
        -- a full ring is looked at again
        let c := { s.client k with ring := some (ring.put event) }
        if ring.len < ring.capacity then
          some { s with client := update s.client k c, pc := .send device event left }
        else some s
    else some { s with pc := .send device event left }
  | .receive => none

/-- A message is handled, and the loop starts again. -/
def receive (wheel : Bool) (s : Server) : Message → Server
  | .interrupt => s
  | .connect k =>
    if k ∈ s.connections then s
    else { s with connections := s.connections ++ [k], client := update s.client k {} }
  | .startListen k eventTypes =>
    let c : Client :=
      { eventTypes, ring := some { capacity := ringCapacity }, skipped := (hiEvents wheel s.bytes).length }
    if k ∈ s.connections then { s with client := update s.client k c } else s
  | .disconnect k => { s with connections := s.connections.erase k }

/-- `try_consume` of a client. -/
def tryConsume (s : Server) (k : ℕ) : Server :=
  match (s.client k).ring with
  | none => s
  | some ring =>
    let c := { s.client k with ring := some ring.take.2, taken := (s.client k).taken ++ [ring.take.1] }
    if ring.len = 0 then s else { s with client := update s.client k c }

def step (wheel : Bool) (s : Server) : Op → Option Server
  | .arrive packet => some { s with input := s.input ++ [packet] }
  | .turn => s.turn
  | .received message =>
    match s.pc with
    | .receive => some { s.receive wheel message with pc := .handle .mouse false }
    | _ => none
  | .tryConsume k => some (s.tryConsume k)

/-- After `init` and `flush`. -/
def start (wheel : Bool) : Server := { mouse := { hasWheel := wheel } }

/-- The events that the server has and has not sent to client `k` yet. -/
def pending (s : Server) (k : ℕ) : List HIEvent :=
  (match s.pc with
    | .send _ event left => if k ∈ left then [event] else []
    | _ => []) ++ s.mouse.events.map MouseEvent.toHI ++ s.keyboard.events.map Ps2KeyboardEvent.toHI

end Server

/-- Client `c` has taken, finds in its ring or is to be sent (`pending`) the events that it listens to, of those
in `events` that it did not miss. -/
def Client.Hears (c : Client) (events pending : List HIEvent) : Prop :=
  ∀ ring, c.ring = some ring → ∃ l, ring.Repr l ∧
    c.taken ++ (l ++ pending.filter c.listensTo).map some = ((events.drop c.skipped).filter c.listensTo).map some
/-- A client that listens has a ring, and hears what it is to hear. -/
structure Client.Fine (c : Client) (events pending : List HIEvent) : Prop where
  ring : c.eventTypes ≠ 0 → c.ring ≠ none
  skipped : c.skipped ≤ events.length
  hears : c.Hears events pending

/-! ### What a client hears -/

namespace Client

variable {c : Client} {events pending : List HIEvent}

/-- More events, which are all to be sent. -/
theorem Hears.more (h : c.Hears events pending) (hc : c.skipped ≤ events.length) (new : List HIEvent) :
    c.Hears (events ++ new) (pending ++ new) := by
  intro ring hring
  obtain ⟨l, hl, heq⟩ := h ring hring
  refine ⟨l, hl, ?_⟩
  have hnew := congrArg (· ++ (new.filter c.listensTo).map some) heq
  simpa [List.drop_append_of_le_length hc] using hnew

/-- An event that the client does not listen to is passed over. -/
theorem Hears.pass {e : HIEvent} (h : c.Hears events (e :: pending)) (he : c.listensTo e = false) :
    c.Hears events pending := by
  intro ring hring
  obtain ⟨l, hl, heq⟩ := h ring hring
  rw [List.filter_cons_of_neg (by simp [he])] at heq
  exact ⟨l, hl, heq⟩

/-- One that it listens to is put in its ring. -/
theorem Hears.produce {e : HIEvent} {ring : PCRing HIEvent} (h : c.Hears events (e :: pending))
    (he : c.listensTo e = true) (hring : c.ring = some ring) (hroom : ring.len < ring.capacity) :
    Hears { c with ring := some (ring.put e) } events pending := by
  obtain ⟨l, hl, heq⟩ := h ring hring
  intro ring' hring'
  obtain rfl := Option.some.inj hring'
  refine ⟨l ++ [e], PCRing.repr_put hl hroom e, ?_⟩
  rw [List.filter_cons_of_pos he] at heq
  change c.taken ++ (l ++ [e] ++ pending.filter c.listensTo).map some =
    ((events.drop c.skipped).filter c.listensTo).map some
  simpa using heq

/-- The client takes the first event of its ring. -/
theorem Hears.consume {ring : PCRing HIEvent} (h : c.Hears events pending) (hring : c.ring = some ring)
    (hlen : ring.len ≠ 0) :
    Hears { c with ring := some ring.take.2, taken := c.taken ++ [ring.take.1] } events pending := by
  obtain ⟨l, hl, heq⟩ := h ring hring
  obtain ⟨v, l', rfl, hv, hl'⟩ := PCRing.repr_take hl hlen
  intro ring' hring'
  obtain rfl := Option.some.inj hring'
  refine ⟨l', hl', ?_⟩
  change c.taken ++ [ring.take.1] ++ (l' ++ pending.filter c.listensTo).map some =
    ((events.drop c.skipped).filter c.listensTo).map some
  rw [hv]
  simpa using heq

end Client

/-! ### What the decoders have read -/

theorem decoded_mouse (wheel : Bool) (bytes : List (BitVec 8 ⊕ BitVec 8)) (b : BitVec 8) :
    (decoded wheel (bytes ++ [.inl b])).1 =
        ((mouseStep (decoded wheel bytes).1.1 b).1, (decoded wheel bytes).1.2) ∧
      hiEvents wheel (bytes ++ [.inl b]) =
        hiEvents wheel bytes ++ (mouseStep (decoded wheel bytes).1.1 b).2.map MouseEvent.toHI := by
  simp only [decoded, hiEvents, Lib.feed_concat, Lib.both, List.map_append, List.map_map]
  exact ⟨trivial, rfl⟩

theorem decoded_keyboard (wheel : Bool) (bytes : List (BitVec 8 ⊕ BitVec 8)) (b : BitVec 8) :
    (decoded wheel (bytes ++ [.inr b])).1 =
        ((decoded wheel bytes).1.1, (keyboardStep (decoded wheel bytes).1.2 b).1) ∧
      hiEvents wheel (bytes ++ [.inr b]) =
        hiEvents wheel bytes ++ (keyboardStep (decoded wheel bytes).1.2 b).2.map Ps2KeyboardEvent.toHI := by
  simp only [decoded, hiEvents, Lib.feed_concat, Lib.both, List.map_append, List.map_map]
  exact ⟨trivial, rfl⟩

/-- The device that the server is busy with. -/
def Pc.device : Pc → Option Device
  | .handle d _ => some d
  | .poll d => some d
  | .send d _ _ => some d
  | .receive => none

/-- The events of a device that are not sent yet. -/
def Server.events (s : Server) : Device → List HIEvent
  | .mouse => s.mouse.events.map MouseEvent.toHI
  | .keyboard => s.keyboard.events.map Ps2KeyboardEvent.toHI

/-- The decoders stand where the bytes have brought them, only the device that the server is busy with has
events, and each client hears what it is to hear. -/
structure Heard (wheel : Bool) (s : Server) : Prop where
  mouse : s.mouse = { (decoded wheel s.bytes).1.1 with events := s.mouse.events }
  keyboard : s.keyboard = { (decoded wheel s.bytes).1.2 with events := s.keyboard.events }
  quiet (d : Device) (h : s.pc.device ≠ some d ∨ s.pc = .handle d false) : s.events d = []
  left (d : Device) (e : HIEvent) (l : List ℕ) (h : s.pc = .send d e l) : l.Nodup ∧ l ⊆ s.connections
  nodup : s.connections.Nodup
  clients (k : ℕ) (h : k ∈ s.connections) : (s.client k).Fine (hiEvents wheel s.bytes) (s.pending k)

variable {wheel : Bool} {s s' : Server} {d : Device}

theorem Server.pending_eq (s : Server) (k : ℕ) : s.pending k =
    (match s.pc with
      | .send _ event left => if k ∈ left then [event] else []
      | _ => []) ++ s.events .mouse ++ s.events .keyboard := rfl

/-- With one device busy, what is pending is what is being sent and that device's events. -/
theorem Heard.pending (h : Heard wheel s) (hd : s.pc.device = some d) (k : ℕ) : s.pending k =
    (match s.pc with
      | .send _ event left => if k ∈ left then [event] else []
      | _ => []) ++ s.events d := by
  rw [Server.pending_eq]
  cases d with
  | mouse => rw [h.quiet .keyboard (.inl (by simp [hd])), List.append_nil]
  | keyboard => rw [h.quiet .mouse (.inl (by simp [hd])), List.append_nil]
/-- The server goes on without having done anything. -/
theorem Heard.setPc (h : Heard wheel s) {pc : Pc}
    (hquiet : ∀ d, pc.device ≠ some d ∨ pc = .handle d false → s.events d = [])
    (hleft : ∀ d e l, pc = .send d e l → l.Nodup ∧ l ⊆ s.connections)
    (hpending : ∀ k ∈ s.connections, Server.pending { s with pc } k = s.pending k) : Heard wheel { s with pc } where
  mouse := h.mouse
  keyboard := h.keyboard
  quiet := hquiet
  left := hleft
  nodup := h.nodup
  clients k hk := by
    rw [hpending k hk]
    exact h.clients k hk

/-- The server is done with a device that has no events left. -/
theorem Heard.next (h : Heard wheel s) (hd : s.pc.device = some d) (hsend : ∀ e l, s.pc ≠ .send d e l)
    (hevents : s.events d = []) : Heard wheel { s with pc := Server.next d } := by
  have hall : ∀ d', s.events d' = [] := by
    intro d'
    by_cases hdd : d' = d
    · exact hdd ▸ hevents
    · exact h.quiet d' (.inl fun hc => hdd (Option.some.inj (hc.symm.trans hd)))
  have hnone : ∀ k, s.pending k = [] := by
    intro k
    rw [h.pending hd, hevents, List.append_nil]
    split
    · rename_i d' e l hpc
      rw [hpc] at hd
      exact absurd hpc (Option.some.inj hd ▸ hsend e l)
    · rfl
  apply h.setPc fun d' _ => hall d'
  · intro d' e l hpc
    cases d <;> cases hpc
  · intro k _
    rw [hnone k, Server.pending_eq]
    have hm := hall .mouse
    have hk := hall .keyboard
    cases d <;> simp_all [Server.next, Server.events]

/-- A byte is of the device that it is ready for. -/
theorem ready_iff (s : Server) : (s.ready .mouse = true ↔ ∃ b rest, s.input = .inl b :: rest) ∧
    (s.ready .keyboard = true ↔ ∃ b rest, s.input = .inr b :: rest) := by
  rcases hinput : s.input with _ | ⟨b | b, rest⟩ <;>
    simp [Server.ready, Server.status, hinput, Server.PS2_OUTPUT_STATUS_FULL]

/-- A client after a byte that ends the events `new`. -/
theorem Heard.more (h : Heard wheel s) {t : Server} {new : List HIEvent} {k : ℕ} (hk : k ∈ s.connections)
    (hevents : hiEvents wheel t.bytes = hiEvents wheel s.bytes ++ new)
    (hpending : t.pending k = s.pending k ++ new) :
    (s.client k).Fine (hiEvents wheel t.bytes) (t.pending k) := by
  have hclient := h.clients k hk
  rw [hevents, hpending]
  refine ⟨hclient.ring, ?_, hclient.hears.more hclient.skipped new⟩
  rw [List.length_append]
  exact Nat.le_trans hclient.skipped (Nat.le_add_right _ _)

/-- **A byte is read**: the events that it ends are to be sent, after those that were there. -/
theorem heard_read {acquired : Bool} (h : Heard wheel s) (hpc : s.pc = .handle d acquired) (hready : s.ready d = true) :
    Heard wheel { s.readPacket d with pc := .handle d true } := by
  obtain ⟨hmouse, hkeyboard⟩ := ready_iff s
  have hdevice : s.pc.device = some d := by rw [hpc]; rfl
  have hquiet : ∀ d', d ≠ d' → s.events d' = [] := by
    intro d' hne
    exact h.quiet d' (.inl fun hc => hne (Option.some.inj (hdevice.symm.trans hc)))
  have hpending : ∀ k, s.pending k = s.events d := fun k => by rw [h.pending hdevice, hpc, List.nil_append]
  cases d with
  | mouse =>
    obtain ⟨b, rest, hinput⟩ := hmouse.mp hready
    obtain ⟨hstate, hevents⟩ := decoded_mouse wheel s.bytes b
    have hpacket : s.mouse.handlePacket b = { (mouseStep (decoded wheel s.bytes).1.1 b).1 with
        events := s.mouse.events ++ (mouseStep (decoded wheel s.bytes).1.1 b).2 } := by
      rw [handlePacket_mouse]
      rw [show mouseStep s.mouse b = mouseStep (decoded wheel s.bytes).1.1 b by rw [h.mouse]; rfl]
    simp only [Server.readPacket, hinput, Sum.elim_inl, id_eq]
    have hclient : ∀ k ∈ s.connections, _ := fun k hk => h.more hk (t := { s with
      input := rest, bytes := s.bytes ++ [.inl b], mouse := s.mouse.handlePacket b, pc := .handle .mouse true }) hevents
      (by
        have hk : s.keyboard.events = [] := by simpa [Server.events] using hquiet .keyboard (by simp)
        rw [hpending, Server.pending_eq]
        simp [Server.events, hpacket, hk])
    exact
      { mouse := by rw [hstate, hpacket]
        keyboard := by
          rw [hstate]
          exact h.keyboard
        quiet := by
          intro d' hd'
          cases d' with
          | mouse => simp [Pc.device] at hd'
          | keyboard => exact hquiet .keyboard (by simp)
        left := nofun
        nodup := h.nodup
        clients := hclient }
  | keyboard =>
    obtain ⟨b, rest, hinput⟩ := hkeyboard.mp hready
    obtain ⟨hstate, hevents⟩ := decoded_keyboard wheel s.bytes b
    have hpacket : s.keyboard.handlePacket b = { (keyboardStep (decoded wheel s.bytes).1.2 b).1 with
        events := s.keyboard.events ++ (keyboardStep (decoded wheel s.bytes).1.2 b).2 } := by
      rw [handlePacket_keyboard]
      rw [show keyboardStep s.keyboard b = keyboardStep (decoded wheel s.bytes).1.2 b by rw [h.keyboard]; rfl]
    simp only [Server.readPacket, hinput, Sum.elim_inr, id_eq]
    have hclient : ∀ k ∈ s.connections, _ := fun k hk => h.more hk (t := { s with
      input := rest, bytes := s.bytes ++ [.inr b], keyboard := s.keyboard.handlePacket b,
      pc := .handle .keyboard true }) hevents
      (by
        have hm : s.mouse.events = [] := by simpa [Server.events] using hquiet .mouse (by simp)
        rw [hpending, Server.pending_eq]
        simp [Server.events, hpacket, hm])
    exact
      { mouse := by
          rw [hstate]
          exact h.mouse
        keyboard := by rw [hstate, hpacket]
        quiet := by
          intro d' hd'
          cases d' with
          | mouse => exact hquiet .mouse (by simp)
          | keyboard => simp [Pc.device] at hd'
        left := nofun
        nodup := h.nodup
        clients := hclient }
/-- **An event is polled**, and is to go to every client. -/
theorem heard_poll {e : HIEvent} (h : Heard wheel s) (hpc : s.pc = .poll d) (hs : s.pollEvent d = some (e, s')) :
    Heard wheel { s' with pc := .send d e s'.connections } := by
  have hdevice : s.pc.device = some d := by rw [hpc]; rfl
  have hpending : ∀ k, s.pending k = s.events d := fun k => by rw [h.pending hdevice, hpc, List.nil_append]
  have hquiet : ∀ d', d ≠ d' → s.events d' = [] := by
    intro d' hne
    exact h.quiet d' (.inl fun hc => hne (Option.some.inj (hdevice.symm.trans hc)))
  cases d with
  | mouse =>
    have hother := hquiet .keyboard (by simp)
    rcases hevents : s.mouse.events with _ | ⟨first, events⟩
    · simp [Server.pollEvent, hevents] at hs
    · simp only [Server.pollEvent, hevents, Option.some.injEq, Prod.mk.injEq] at hs
      obtain ⟨rfl, rfl⟩ := hs
      exact
        { mouse := by rw [h.mouse]
          keyboard := h.keyboard
          quiet := by
            intro d' hd'
            cases d' with
            | mouse => simp [Pc.device] at hd'
            | keyboard => exact hother
          left := by
            rintro d' e' l ⟨⟩
            exact ⟨h.nodup, fun _ hk => hk⟩
          nodup := h.nodup
          clients := by
            intro k hk
            have hclient := h.clients k hk
            rw [hpending, Server.events, hevents] at hclient
            rw [Server.pending_eq]
            simpa [hk, Server.events, show s.keyboard.events = [] by simpa [Server.events] using hother] using hclient }
  | keyboard =>
    have hother := hquiet .mouse (by simp)
    rcases hevents : s.keyboard.events with _ | ⟨first, events⟩
    · simp [Server.pollEvent, hevents] at hs
    · simp only [Server.pollEvent, hevents, Option.some.injEq, Prod.mk.injEq] at hs
      obtain ⟨rfl, rfl⟩ := hs
      exact
        { mouse := h.mouse
          keyboard := by rw [h.keyboard]
          quiet := by
            intro d' hd'
            cases d' with
            | mouse => exact hother
            | keyboard => simp [Pc.device] at hd'
          left := by
            rintro d' e' l ⟨⟩
            exact ⟨h.nodup, fun _ hk => hk⟩
          nodup := h.nodup
          clients := by
            intro k hk
            have hclient := h.clients k hk
            rw [hpending, Server.events, hevents] at hclient
            rw [Server.pending_eq]
            simpa [hk, Server.events, show s.mouse.events = [] by simpa [Server.events] using hother] using hclient }

theorem pollEvent_none (hs : s.pollEvent d = none) : s.events d = [] := by
  cases d with
  | mouse =>
    rcases hevents : s.mouse.events with _ | ⟨e, events⟩
    · simp [Server.events, hevents]
    · simp [Server.pollEvent, hevents] at hs
  | keyboard =>
    rcases hevents : s.keyboard.events with _ | ⟨e, events⟩
    · simp [Server.events, hevents]
    · simp [Server.pollEvent, hevents] at hs

/-- What is pending for the clients other than `k`, when an event has been dealt with for `k`. -/
theorem pending_sent {e : HIEvent} {k : ℕ} {left : List ℕ} (hpc : s.pc = .send d e (k :: left)) (hk : k ∉ left)
    (client : ℕ → Client) : (s.pending k = e :: Server.pending { s with client, pc := .send d e left } k) ∧
      ∀ j ≠ k, s.pending j = Server.pending { s with client, pc := .send d e left } j := by
  simp only [Server.pending, hpc]
  constructor
  · simp [hk]
  · intro j hj
    simp [hj]

/-- What holds of a client that has changed, and of the others. -/
theorem forall_client {P : ℕ → Client → Prop} {client : ℕ → Client} {k : ℕ} {c : Client} {js : List ℕ}
    (hself : k ∈ js → P k c) (hothers : ∀ j ∈ js, j ≠ k → P j (client j)) : ∀ j ∈ js, P j (update client k c j) := by
  intro j hj
  by_cases hjk : j = k
  · subst hjk
    rw [Function.update_self]
    exact hself hj
  · rw [Function.update_of_ne hjk]
    exact hothers j hj hjk

/-- **An event goes to a client**, or past it. -/
theorem heard_send {e : HIEvent} {k : ℕ} {left : List ℕ} {c : Client} (h : Heard wheel s)
    (hpc : s.pc = .send d e (k :: left))
    (hc : ∀ pending, (s.client k).Fine (hiEvents wheel s.bytes) (e :: pending) →
      c.Fine (hiEvents wheel s.bytes) pending) :
    Heard wheel { s with client := update s.client k c, pc := .send d e left } := by
  obtain ⟨hnodup, hsub⟩ := h.left d e (k :: left) hpc
  obtain ⟨hk, hnodup⟩ := List.nodup_cons.mp hnodup
  obtain ⟨hself, hothers⟩ := pending_sent hpc hk (update s.client k c)
  have hdevice : s.pc.device = some d := by rw [hpc]; rfl
  exact
    { mouse := h.mouse
      keyboard := h.keyboard
      quiet := by
        rintro d' (hd' | hd')
        · exact h.quiet d' (.inl (by rwa [hdevice]))
        · cases hd'
      left := by
        rintro d' e' l ⟨⟩
        exact ⟨hnodup, fun j hj => hsub (List.mem_cons_of_mem k hj)⟩
      nodup := h.nodup
      clients := by
        refine forall_client (P := fun j c => c.Fine _ (Server.pending _ j)) (fun hk => ?_) fun j hj hjk => ?_
        · exact hc _ (hself ▸ h.clients k hk)
        · exact hothers j hjk ▸ h.clients j hj }

/-- **One turn of the server.** -/
theorem heard_turn (h : Heard wheel s) (hs : s.turn = some s') : Heard wheel s' := by
  unfold Server.turn at hs
  split at hs
  · rename_i d acquired hpc
    have hdevice : s.pc.device = some d := by rw [hpc]; rfl
    split_ifs at hs with hready hacquired <;> rw [Option.some.injEq] at hs <;> subst hs
    · exact heard_read h hpc hready
    · apply h.setPc
      · rintro d' (hd' | hd')
        · exact h.quiet d' (.inl (by rwa [hdevice]))
        · cases hd'
      · nofun
      · intro k _
        simp [Server.pending, hpc]
    · rw [Bool.not_eq_true] at hacquired
      exact h.next hdevice (by simp [hpc]) (h.quiet d (.inr (hacquired ▸ hpc)))
  · rename_i d hpc
    have hdevice : s.pc.device = some d := by rw [hpc]; rfl
    split at hs
    · rename_i hnone
      rw [Option.some.injEq] at hs
      subst hs
      exact h.next hdevice (by simp [hpc]) (pollEvent_none hnone)
    · rename_i e s1 hsome
      rw [Option.some.injEq] at hs
      subst hs
      exact heard_poll h hpc hsome
  · rename_i d e hpc
    rw [Option.some.injEq] at hs
    subst hs
    have hdevice : s.pc.device = some d := by rw [hpc]; rfl
    apply h.setPc
    · rintro d' (hd' | hd')
      · exact h.quiet d' (.inl (by rwa [hdevice]))
      · cases hd'
    · nofun
    · intro k _
      simp [Server.pending, hpc]
  · rename_i d e k left hpc
    split_ifs at hs with hlistens
    · split at hs
      · cases hs
      · rename_i ring hring
        split_ifs at hs with hroom
        · rw [Option.some.injEq] at hs
          subst hs
          exact heard_send h hpc fun _ hc => ⟨by simp, hc.skipped, hc.hears.produce hlistens hring hroom⟩
        · rw [Option.some.injEq] at hs
          exact hs ▸ h
    · rw [Option.some.injEq] at hs
      subst hs
      rw [Bool.not_eq_true] at hlistens
      have hpass := heard_send (c := s.client k) h hpc fun _ hc => ⟨hc.ring, hc.skipped, hc.hears.pass hlistens⟩
      rwa [Function.update_eq_self] at hpass
  · cases hs
/-- The server between two rounds, with any clients that are fine. -/
theorem Heard.round (h : Heard wheel s) (hpc : s.pc = .receive) {connections : List ℕ} {client : ℕ → Client}
    (hnodup : connections.Nodup)
    (hall : ∀ k ∈ connections, (client k).Fine (hiEvents wheel s.bytes) []) :
    Heard wheel { s with connections, client, pc := .handle .mouse false } := by
  have hquiet : ∀ d, s.events d = [] := fun d => h.quiet d (.inl (by simp [hpc, Pc.device]))
  exact
    { mouse := h.mouse
      keyboard := h.keyboard
      quiet := fun d _ => hquiet d
      left := nofun
      nodup := hnodup
      clients := by
        intro k hk
        have hnone : Server.pending { s with connections, client, pc := .handle .mouse false } k =
            [] ++ s.events .mouse ++ s.events .keyboard := rfl
        rw [hnone, hquiet, hquiet]
        exact hall k hk }

/-- **A message is handled** while nothing is pending. -/
theorem heard_receive (h : Heard wheel s) (hpc : s.pc = .receive) (message : Message) :
    Heard wheel { s.receive wheel message with pc := .handle .mouse false } := by
  have hold : ∀ k ∈ s.connections, (s.client k).Fine (hiEvents wheel s.bytes) [] := by
    intro k hk
    have hclient := h.clients k hk
    rw [Server.pending_eq, h.quiet .mouse (.inl (by simp [hpc, Pc.device])),
      h.quiet .keyboard (.inl (by simp [hpc, Pc.device])), hpc] at hclient
    exact hclient
  unfold Server.receive
  cases message with
  | interrupt => exact h.round hpc h.nodup hold
  | connect k =>
    simp only
    split_ifs with hk
    · exact h.round hpc h.nodup hold
    · refine h.round hpc ?_ (forall_client (P := fun _ c => c.Fine _ []) (fun _ => ?_) fun j hj hjk => ?_)
      · exact List.nodup_append.mpr ⟨h.nodup, by simp, by simp; exact fun a ha hak => hk (hak ▸ ha)⟩
      · exact ⟨by simp, Nat.zero_le _, by simp [Client.Hears]⟩
      · exact hold j (by simpa [hjk] using hj)
  | startListen k eventTypes =>
    simp only
    split_ifs with hk
    · refine h.round hpc h.nodup (forall_client (P := fun _ c => c.Fine _ []) (fun _ => ?_) fun j hj _ => hold j hj)
      refine ⟨by simp, le_rfl, ?_⟩
      intro ring hring
      obtain rfl := Option.some.inj hring
      exact ⟨[], PCRing.repr_new (by decide), by simp⟩
    · exact h.round hpc h.nodup hold
  | disconnect k => exact h.round hpc (h.nodup.erase k) fun j hj => hold j (List.mem_of_mem_erase hj)

theorem heard_tryConsume (h : Heard wheel s) (k : ℕ) : Heard wheel (s.tryConsume k) := by
  unfold Server.tryConsume
  split
  · exact h
  · rename_i ring hring
    simp only
    split_ifs with hlen
    · exact h
    · refine ⟨h.mouse, h.keyboard, h.quiet, h.left, h.nodup, ?_⟩
      refine forall_client (P := fun j c => c.Fine _ (Server.pending _ j)) (fun hk => ?_) fun j hj _ => h.clients j hj
      have hclient := h.clients k hk
      exact ⟨by simp, hclient.skipped, hclient.hears.consume hring hlen⟩

/-- **One step.** -/
theorem heard_step (o : Op) (h : Heard wheel s) (hs : s.step wheel o = some s') : Heard wheel s' := by
  cases o with
  | arrive packet =>
    rw [Server.step, Option.some.injEq] at hs
    subst hs
    exact ⟨h.mouse, h.keyboard, h.quiet, h.left, h.nodup, h.clients⟩
  | turn => exact heard_turn h hs
  | received message =>
    simp only [Server.step] at hs
    split at hs
    · rename_i hpc
      rw [Option.some.injEq] at hs
      exact hs ▸ heard_receive h hpc message
    · cases hs
  | tryConsume k =>
    rw [Server.step, Option.some.injEq] at hs
    exact hs ▸ heard_tryConsume h k

theorem heard_start (wheel : Bool) : Heard wheel (Server.start wheel) where
  mouse := rfl
  keyboard := rfl
  quiet d _ := by cases d <;> rfl
  left := nofun
  nodup := List.nodup_nil
  clients k hk := absurd hk List.not_mem_nil

/-- The server follows no null pointer: a client that listens has a ring. -/
theorem Heard.turn_ne_none (h : Heard wheel s) (hpc : s.pc ≠ .receive) : s.turn ≠ none := by
  unfold Server.turn
  split
  · split_ifs <;> simp
  · split <;> simp
  · simp
  · rename_i d e k left hsend
    obtain ⟨-, hsub⟩ := h.left d e (k :: left) hsend
    split_ifs with hlistens
    · have htypes : (s.client k).eventTypes ≠ 0 := by
        intro hzero
        simp [Client.listensTo, hzero] at hlistens
      split
      · rename_i hnone
        exact absurd hnone ((h.clients k (hsub List.mem_cons_self)).ring htypes)
      · split_ifs <;> simp
    · simp
  · rename_i hreceive
    exact absurd hreceive hpc

/-- **Each client hears its events.** In every run of the server, what a client has taken from its ring, what is
in the ring and what it is still to be sent are, in this order, the events of its types that the bytes read since
it began to listen describe: none is lost, doubled or out of order. And the server goes on until it waits. -/
theorem client_hears (wheel : Bool) (ops : List Op) {s : Server}
    (hr : Lib.run (Server.step wheel) ops (Server.start wheel) = some s) :
    (s.pc ≠ .receive → s.turn ≠ none) ∧ ∀ k ∈ s.connections, ∀ ring, (s.client k).ring = some ring →
      ∃ l, ring.Repr l ∧ (s.client k).taken ++ (l ++ (s.pending k).filter (s.client k).listensTo).map some =
        (((hiEvents wheel s.bytes).drop (s.client k).skipped).filter (s.client k).listensTo).map some := by
  have h : Heard wheel s := Lib.run_invariant (fun _ o _ h hs => heard_step o h hs) (heard_start wheel) hr
  exact ⟨h.turn_ne_none, fun k hk => (h.clients k hk).hears⟩

/-- A client begins to listen to the keyboard, and a click and a key come in. -/
def keyPressed : List Op :=
  [.turn, .turn, .received (.connect 7), .turn, .turn, .received (.startListen 7 4), .arrive (.inl 0x09#8),
    .arrive (.inr 0x1E#8), .arrive (.inl 0#8), .arrive (.inl 0#8)] ++ List.replicate 9 .turn ++ [.tryConsume 7]

/-- It has taken the key. -/
theorem client_hears_key : ∃ s, Lib.run (Server.step false) keyPressed (Server.start false) = some s ∧
    (s.client 7).taken = [some (.keyboard 0x1E true)] ∧ ∀ ring, (s.client 7).ring = some ring →
      ∃ l, ring.Repr l ∧ (s.client 7).taken ++ (l ++ (s.pending 7).filter (s.client 7).listensTo).map some =
        (((hiEvents false s.bytes).drop (s.client 7).skipped).filter (s.client 7).listensTo).map some := by
  obtain ⟨s, hs, hstate⟩ := Option.map_eq_some_iff.mp (show (Lib.run (Server.step false) keyPressed
    (Server.start false)).map (fun s => (s.connections, (s.client 7).taken)) =
      some ([7], [some (.keyboard 0x1E true)]) by decide)
  rw [Prod.mk.injEq] at hstate
  exact ⟨s, hs, hstate.2, (client_hears false keyPressed hs).2 7 (by rw [hstate.1]; decide)⟩

end Ps2
end WingOS
